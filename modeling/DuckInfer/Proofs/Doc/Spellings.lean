import DuckInfer.Proofs.Doc.Brackets
import DuckInfer.Proofs.Ty.Characters

/-!
The two spellings of a tag about a named thing, `@param name [types] text` and
`@param [types] name text`. The first is taken apart by the reader of tag lines. The second has no
word in front of the bracket: its name opens the text, and is cut from it when all lines of the tag
are joined. Main statement: in every comment the spellings may be exchanged.
-/

namespace DuckInfer.Doc

open Text TagGrammar

namespace TagLine

/-! ### Two spellings -/

/-- A tag line with the word in front of the types. -/
def wordFirst (name word types text : List Char) : List Char :=
  typesLine name (' ' :: word) types ++ ' ' :: text

/-- A tag line with the word behind the types, where it opens the text. -/
def typesFirst (name word types text : List Char) : List Char :=
  typesLine name [] types ++ (' ' :: word ++ ' ' :: text)

theorem isBlank_of_isWordChar {c : Char} (part : isWordChar c = true) : isBlank c = false := by
  simp only [isWordChar, Bool.or_eq_true, beq_iff_eq] at part
  rcases part with (part | rfl) | rfl
  · exact isBlank_of_isIdentRest (Bool.or_eq_true_iff.mpr (part.imp_right beq_iff_eq.mpr))
  · decide
  · decide

/-- Right behind the name of the tag there is a bracket, and no word. -/
theorem readWord?_typesEnd (types rest : List Char) :
    readWord? (typesEnd types ++ rest) = none :=
  rfl

section

variable {name word types pad : List Char}
  (named : (name.head?.any isNameStart && name.tail.all isNameRest) = true) (some : word ≠ [])
  (all : word.all isWordChar = true) (paired : PairedUp types) (blank : pad.all isBlank = true)

include named some all paired blank

theorem ofLine_wordFirst (text : List Char) :
    TagLine.ofLine (pad ++ wordFirst name word types text) =
      .ok ⟨false, String.ofList name, .some (String.ofList word),
        .some (String.ofList (trim types)), String.ofList (trim text)⟩ := by
  have whole : trim (pad ++ wordFirst name word types text) =
      '@' :: name ++ (' ' :: word ++ (typesEnd types ++ trimRight (' ' :: text))) := by
    rw [wordFirst, (firm_typesLine ..).trim_append_rest blank]
    simp [typesLine]
  have ends : ∀ c ∈ (' ' :: word ++ (typesEnd types ++ trimRight (' ' :: text))).head?,
      isNameRest c = false := by
    intro c first
    exact Option.some.inj first ▸ (by decide)
  have read : readWord? (' ' :: word ++ (typesEnd types ++ trimRight (' ' :: text))) =
      .some (word, typesEnd types ++ trimRight (' ' :: text)) :=
    readWord?_bracket some all _
  rw [ofLine_of_trim named ends whole, ofParts_eq]
  simp only [read, Option.elim_some, Option.map_some, paired.readTypes?_typesEnd,
    trim_trimRight, trim_cons_of_blank (by decide : isBlank ' ' = true)]

theorem ofLine_typesFirst (text : List Char) :
    TagLine.ofLine (pad ++ typesFirst name word types text) =
      .ok ⟨false, String.ofList name, none, .some (String.ofList (trim types)),
        String.ofList (word ++ trimRight (' ' :: text))⟩ := by
  have firm : Firm word := firm_of_visible some fun c member =>
    isBlank_of_isWordChar (List.all_eq_true.mp all c member)
  have whole : trim (pad ++ typesFirst name word types text) =
      '@' :: name ++ (typesEnd types ++ ([' '] ++ (word ++ trimRight (' ' :: text)))) := by
    have front : pad ++ typesFirst name word types text =
        pad ++ (typesLine name [] types ++ [' '] ++ word ++ ' ' :: text) := by
      simp [typesFirst]
    rw [front, ((firm_typesLine ..).append firm [' ']).trim_append_rest blank]
    simp [typesLine]
  have ends : ∀ c ∈ (typesEnd types ++ ([' '] ++ (word ++ trimRight (' ' :: text)))).head?,
      isNameRest c = false := by
    intro c first
    exact Option.some.inj first ▸ (by decide)
  have tail : trim ([' '] ++ (word ++ trimRight (' ' :: text))) =
      word ++ trimRight (' ' :: text) := by
    rw [firm.trim_append_rest (by decide), trimRight_trimRight]
  rw [ofLine_of_trim named ends whole, ofParts_eq]
  simp only [readWord?_typesEnd, Option.elim_none, Option.map_none, Option.map_some,
    paired.readTypes?_typesEnd, Option.elim_some, tail]

end

end TagLine

namespace DocComment

/-! ### Continuation lines -/

theorem foldl_appendLine (lines : List (List Char)) : ∀ {text : List Char}, text ≠ [] →
    lines.foldl appendLine text = text ++ lines.flatMap (' ' :: ·) := by
  induction lines with
  | nil => simp
  | cons line lines ih =>
    intro text some
    have step : appendLine text line = text ++ ' ' :: line := by
      simp [appendLine, some]
    rw [List.foldl_cons, step, ih (by simp), List.flatMap_cons, List.append_assoc]

theorem firm_append_flatMap {lines : List (List Char)} (firm : ∀ line ∈ lines, Firm line) :
    ∀ {text : List Char}, Firm text → Firm (text ++ lines.flatMap (' ' :: ·)) := by
  induction lines with
  | nil => simp
  | cons line lines ih =>
    intro text whole
    obtain ⟨first, firm⟩ := List.forall_mem_cons.mp firm
    have longer := ih firm (whole.append first [' '])
    simpa using longer

/-- The lines that are added to a trimmed text may as well be added before it is trimmed. -/
theorem foldl_appendLine_trim {lines : List (List Char)} (firm : ∀ line ∈ lines, Firm line)
    (s : List Char) :
    lines.foldl appendLine (trim s) = trim (trimRight s ++ lines.flatMap (' ' :: ·)) := by
  rcases blank_or_firm s with blank | ⟨front, inner, back, rfl, blank, blank', whole⟩
  · rw [trim_of_blank blank, trimRight_of_blank blank]
    cases lines with
    | nil => rfl
    | cons line lines =>
      obtain ⟨first, firm⟩ := List.forall_mem_cons.mp firm
      rw [List.foldl_cons, List.nil_append, List.flatMap_cons, List.cons_append,
        trim_cons_of_blank (by decide), (firm_append_flatMap firm first).trim_eq]
      exact foldl_appendLine lines first.ne_nil
  · rw [whole.trim_append blank blank', whole.trimRight_append blank', List.append_assoc,
      foldl_appendLine lines whole.ne_nil]
    have longer := (firm_append_flatMap firm whole).trim_append blank List.all_nil
    rw [List.append_nil] at longer
    exact longer.symm

/-! ### Tags -/

/-- The text of a tag with the lines that continue it. -/
def textWith (text : List Char) (lines : List (List Char)) : List Char :=
  ((lines.map trim).filter (!·.isEmpty)).foldl appendLine (trim text)

theorem cutAtBlank_append {word rest : List Char} (solid : ∀ c ∈ word, isBlank c = false)
    (ends : ∀ c ∈ rest.head?, isBlank c = true) :
    cutAtBlank (word ++ rest) = (word, trim rest) := by
  have all : word.all (!isBlank ·) = true := by simpa using solid
  have ends' : ∀ c ∈ rest.head?, (!isBlank c) = false := by simpa using ends
  obtain ⟨taken, dropped⟩ := span_append all ends'
  rw [cutAtBlank, taken, dropped]

/-- The tag of a line whose word was read in front of the types. -/
theorem tagOf_leadingWord (name word types text : List Char) (n : Nat) (own : List (List Char)) :
    tagOf ⟨⟨false, String.ofList name, some (String.ofList word), some (String.ofList types),
        String.ofList (trim text)⟩, n, own⟩ =
      ⟨String.ofList name, some (String.ofList word), some (String.ofList types),
        String.ofList (textWith text own)⟩ := by
  simp [tagOf, joinedText, textWith]

/-- What is joined to the word that opens a text begins with a blank. -/
theorem isBlank_of_mem_head?_joined (text : List Char) (lines : List (List Char)) :
    ∀ c ∈ (trimRight (' ' :: text) ++ lines.flatMap (' ' :: ·)).head?, isBlank c = true := by
  intro c first
  cases kept : trimRight (' ' :: text) with
  | nil =>
    rw [kept, List.nil_append] at first
    cases lines with
    | nil => cases first
    | cons line lines => exact Option.some.inj first ▸ (by decide)
  | cons d rest =>
    have front := trimRight_prefix (' ' :: text)
    rw [kept, List.cons_prefix_cons] at front
    rw [kept] at first
    exact Option.some.inj first ▸ front.1 ▸ (by decide)

/-- The tag of a line whose word opens the text: the word is cut from the joined lines. -/
theorem tagOf_textWord {name word : List Char} (subject : String.ofList name ∈ subjectTags)
    (some : word ≠ []) (solid : ∀ c ∈ word, isBlank c = false) (types text : List Char) (n : Nat)
    (own : List (List Char)) :
    tagOf ⟨⟨false, String.ofList name, none, .some (String.ofList types),
        String.ofList (word ++ trimRight (' ' :: text))⟩, n, own⟩ =
      ⟨String.ofList name, .some (String.ofList word), .some (String.ofList types),
        String.ofList (textWith text own)⟩ := by
  have firm : ∀ line ∈ (own.map trim).filter (!·.isEmpty), Firm line := by
    intro line listed
    obtain ⟨listed, solid⟩ := List.mem_filter.mp listed
    obtain ⟨line, -, rfl⟩ := List.mem_map.mp listed
    exact firm_trim (by simpa using solid)
  have joined : ((own.map trim).filter (!·.isEmpty)).foldl appendLine
      (word ++ trimRight (' ' :: text)) =
      word ++ (trimRight (' ' :: text) ++
        ((own.map trim).filter (!·.isEmpty)).flatMap (' ' :: ·)) := by
    rw [foldl_appendLine _ (List.append_ne_nil_of_left_ne_nil some _), List.append_assoc]
  have rest := foldl_appendLine_trim firm (' ' :: text)
  rw [trim_cons_of_blank (by decide)] at rest
  have cut := cutAtBlank_append solid
    (isBlank_of_mem_head?_joined text ((own.map trim).filter (!·.isEmpty)))
  rw [← rest] at cut
  unfold tagOf joinedText
  dsimp only
  rw [String.toList_ofList, joined, cut]
  simp [subject, some, textWith]

/-! ### Header lines -/

/-- The indent of a line is the size of the blanks in front of its visible part. -/
theorem indent_append {blanks s : List Char} (blank : blanks.all isBlank = true) (firm : Firm s)
    (rest : List Char) : indent (blanks ++ (s ++ rest)) = byteSize blanks := by
  obtain ⟨c, more, rfl, solid⟩ := firm.front
  rw [indent, List.takeWhile_append_of_pos (List.all_eq_true.mp blank), List.cons_append,
    List.takeWhile_cons_of_neg (by simp [solid]), List.append_nil]

theorem ofLine_of_blank {line : List Char} (blank : line.all isBlank = true) :
    TagLine.ofLine line = .error (.notATag "") := by
  unfold TagLine.ofLine
  rw [trim_of_blank blank]

theorem isBlankLine_of_ofLine? {line : List Char} {block : TagBlock}
    (opened : TagBlock.ofLine? line = some block) :
    isBlankLine line = false ∧ indent line = block.indent := by
  unfold TagBlock.ofLine? at opened
  constructor
  · rw [← Bool.not_eq_true]
    intro blank
    rw [ofLine_of_blank blank] at opened
    cases opened
  · split at opened
    · cases opened
      rfl
    · cases opened

/-- A carriage return at the end of a line has no part in its tag. -/
theorem ofLine?_append_return (line : List Char) :
    TagBlock.ofLine? (line ++ ['\r']) = TagBlock.ofLine? line := by
  have same : TagLine.ofLine (line ++ ['\r']) = TagLine.ofLine line := by
    unfold TagLine.ofLine
    rw [trim_append_blank (by decide)]
  rw [TagBlock.ofLine?, TagBlock.ofLine?, same]
  rcases blank_or_firm line with blank | ⟨front, inner, back, rfl, blank, -, firm⟩
  · rw [ofLine_of_blank blank]
  · rw [List.append_assoc, List.append_assoc, indent_append blank firm, indent_append blank firm]

/-- A blank line, or one that is deeper than this indent. -/
def deeper (n : Nat) (line : List Char) : Bool :=
  isBlankLine line || indent line > n

/-- A line that the last open block does not take begins anew. -/
theorem blocksFrom_append {line : List Char} (after : List (List Char))
    (before : List (List Char)) : ∀ current : Option TagBlock,
      (∀ block, (blocksFrom current before).getLast? = some (.tagged block) →
        block.continues line = false) →
      blocksFrom current (before ++ line :: after) =
        blocksFrom current before ++ blocksFrom none (line :: after) := by
  induction before with
  | nil =>
    intro current outside
    cases current with
    | none => rfl
    | some block =>
      have closed := outside block rfl
      rw [List.nil_append, blocksFrom_some, List.takeWhile_cons_of_neg (by simp [closed]),
        List.dropWhile_cons_of_neg (by simp [closed]), List.append_nil]
      rfl
  | cons first before ih =>
    intro current outside
    rw [blocksFrom] at outside
    rw [List.cons_append, blocksFrom, blocksFrom]
    split at outside
    · exact ih _ outside
    · rw [List.append_assoc]
      congr 1
      -- the last of the later blocks is the last of all
      split at outside
      · refine ih _ fun last same => outside last ?_
        rw [List.getLast?_append, same, Option.some_or]
      · rw [List.cons_append]
        congr 1
        refine ih _ fun last same => outside last ?_
        rw [List.getLast?_append, List.getLast?_cons, same]
        rfl

/-- A tag line that no block in front of it takes opens a block, which takes the deeper lines that
follow. -/
theorem blocks_header {pad s header : List Char} {tag : TagLine} (firm : Firm s)
    (opens : s <+: header) (blank : pad.all isBlank = true) (single : '\n' ∉ pad ++ header)
    (read : TagLine.ofLine (pad ++ header) = .ok tag) {front rest : List Char}
    (ends : ∀ c ∈ front.getLast?, c = '\n') (begins : ∀ c ∈ rest.head?, c = '\n')
    (outside : ∀ block, (blocks (String.ofList front)).getLast? = some (.tagged block) →
      byteSize pad ≤ block.indent) :
    blocks (String.ofList (front ++ (pad ++ header ++ rest))) =
      blocks (String.ofList front) ++
        .tagged ⟨tag, byteSize pad, (lines rest.tail).takeWhile (deeper (byteSize pad))⟩ ::
          blocksFrom none ((lines rest.tail).dropWhile (deeper (byteSize pad))) := by
  obtain ⟨after, rfl⟩ := opens
  have some : pad ++ (s ++ after) ≠ [] := by
    simp [firm.ne_nil]
  have indented := indent_append blank firm after
  have opened : TagBlock.ofLine? (pad ++ (s ++ after)) = .some ⟨tag, byteSize pad, []⟩ := by
    rw [TagBlock.ofLine?, read, indented]
  obtain ⟨line, near, whole⟩ := lines_cons single some begins
  have opened' : TagBlock.ofLine? line = .some ⟨tag, byteSize pad, []⟩ := by
    rcases near with rfl | near
    · exact opened
    · rw [← ofLine?_append_return, ← near, opened]
  have closed : ∀ block, (blocksFrom none (lines front)).getLast? = .some (.tagged block) →
      block.continues line = false := by
    intro block last
    obtain ⟨solid, indented⟩ := isBlankLine_of_ofLine? opened'
    have within : byteSize pad ≤ block.indent :=
      outside block (by rw [blocks, String.toList_ofList, last])
    rw [TagBlock.continues, solid, indented]
    simpa using within
  rw [blocks, String.toList_ofList, lines_append ends, whole,
    blocksFrom_append _ _ _ closed, blocks, String.toList_ofList]
  congr 1
  rw [blocksFrom]
  simp only [Option.filter_none, opened', Option.map_none, Option.toList_none, List.nil_append,
    blocksFrom_some]
  rfl

/-! ### Whole comments -/

/-- A tag stands between the tags of the blocks around it, and leaves the rest as it is. -/
theorem ofBlocks_tagged {block : TagBlock} (plain : block.line.directive = false)
    (front back : List Block) :
    ofBlocks (front ++ .tagged block :: back) =
      { ofBlocks (front ++ back) with
        tags := (ofBlocks front).tags ++ tagOf block :: (ofBlocks back).tags } := by
  have lines : (front ++ .tagged block :: back).filterMap plainLine? =
      (front ++ back).filterMap plainLine? := by
    rw [List.filterMap_append, List.filterMap_append]
    rfl
  have directives : (front ++ .tagged block :: back).filterMap directive? =
      (front ++ back).filterMap directive? := by
    have left : directive? (.tagged block) = none := by
      simp [directive?, plain]
    rw [List.filterMap_append, List.filterMap_append, List.filterMap_cons_none left]
  have tags : (front ++ .tagged block :: back).filterMap tag? =
      front.filterMap tag? ++ tagOf block :: back.filterMap tag? := by
    have kept : tag? (.tagged block) = some (tagOf block) := by
      simp [tag?, plain]
    rw [List.filterMap_append, List.filterMap_cons_some kept]
  rw [ofBlocks, lines, directives, tags]
  rfl

/-- A comment with a header behind so many blanks. In front of the line and behind it there may be
other lines. -/
def commentWith (front pad header rest : List Char) : DocComment :=
  ofText (String.ofList (front ++ (pad ++ header ++ rest)))

theorem named_of_subject {name : String} (subject : name ∈ subjectTags) :
    (name.toList.head?.any TagLine.isNameStart &&
      name.toList.tail.all TagLine.isNameRest) = true ∧ '\n' ∉ name.toList := by
  simp only [subjectTags, List.mem_cons, List.not_mem_nil, or_false] at subject
  rcases subject with rfl | rfl | rfl <;> decide

/-- Word and types may be exchanged in the header of a tag about a named thing: the comment stays
the same, and its tag has the word as its parameter and the text of all its lines. The header opens
a tag of its own if it is not deeper than a tag right in front of it. -/
theorem commentWith_spellings {name : String} (subject : name ∈ subjectTags)
    {word types text pad front rest : List Char} (filled : word ≠ [])
    (all : word.all TagLine.isWordChar = true) (paired : TagLine.PairedUp types)
    (blank : pad.all isBlank = true) (single : '\n' ∉ pad ++ (types ++ text))
    (ends : ∀ c ∈ front.getLast?, c = '\n') (begins : ∀ c ∈ rest.head?, c = '\n')
    (outside : ∀ block, (blocks (String.ofList front)).getLast? = some (.tagged block) →
      byteSize pad ≤ block.indent) :
    commentWith front pad (TagLine.wordFirst name.toList word types text) rest =
        commentWith front pad (TagLine.typesFirst name.toList word types text) rest ∧
      (commentWith front pad (TagLine.wordFirst name.toList word types text) rest).tags =
        (ofText (String.ofList front)).tags ++
          ⟨name, some (String.ofList word), some (String.ofList (trim types)),
            String.ofList (textWith text ((lines rest.tail).takeWhile (deeper (byteSize pad))))⟩ ::
          (ofBlocks (blocksFrom none
            ((lines rest.tail).dropWhile (deeper (byteSize pad))))).tags := by
  obtain ⟨named, oneLine⟩ := named_of_subject subject
  have solid : ∀ c ∈ word, isBlank c = false := fun c member =>
    TagLine.isBlank_of_isWordChar (List.all_eq_true.mp all c member)
  have feed : '\n' ∉ word := fun member => absurd (solid _ member) (by decide)
  simp only [List.mem_append, not_or] at single
  have first := blocks_header (TagLine.firm_typesLine ..) (List.prefix_append ..) blank
    (by simp [TagLine.typesLine, TagLine.typesEnd, single, feed, oneLine])
    (TagLine.ofLine_wordFirst named filled all paired blank text) ends begins outside
  rw [← TagLine.wordFirst] at first
  have second := blocks_header (TagLine.firm_typesLine ..) (List.prefix_append ..) blank
    (by simp [TagLine.typesLine, TagLine.typesEnd, single, feed, oneLine])
    (TagLine.ofLine_typesFirst named filled all paired blank text) ends begins outside
  rw [← TagLine.typesFirst] at second
  have tag := tagOf_leadingWord name.toList word (trim types) text
  have tag' := tagOf_textWord (by rwa [String.ofList_toList]) filled solid (trim types) text
  constructor
  · rw [commentWith, commentWith, ofText, ofText, first, second, ofBlocks_tagged rfl,
      ofBlocks_tagged rfl, tag, tag']
  · rw [commentWith, ofText, first, ofBlocks_tagged rfl, tag, String.ofList_toList]
    rfl

/-- A tag with nothing behind the types has the text of the lines below. -/
theorem commentWith_spellings_below :
    ofText " @return [A]\n @param *a [ Hash[A] | [B]] \t\n\t [all]\r\n\n   of it\n@note x" =
      ofText " @return [A]\n @param [ Hash[A] | [B]] *a \t\n\t [all]\r\n\n   of it\n@note x" ∧
    (ofText " @return [A]\n @param *a [ Hash[A] | [B]] \t\n\t [all]\r\n\n   of it\n@note x").tags =
      [⟨"return", none, some "A", ""⟩,
        ⟨"param", some "*a", some "Hash[A] | [B]", "[all] of it"⟩,
        ⟨"note", none, none, "x"⟩] := by
  have outside : ∀ block,
      (blocks (String.ofList " @return [A]\n".toList)).getLast? = some (.tagged block) →
        byteSize [' '] ≤ block.indent := by
    intro block last
    have opened : (blocks (String.ofList " @return [A]\n".toList)).getLast? =
        some (.tagged ⟨⟨false, "return", none, some "A", ""⟩, 1, []⟩) := by rfl
    cases last.symm.trans opened
    decide
  have ends : " @return [A]\n".toList.getLast? = some '\n' := rfl
  have begins : "\n\t [all]\r\n\n   of it\n@note x".toList.head? = some '\n' := rfl
  have both := commentWith_spellings (by decide : "param" ∈ subjectTags)
    (by decide : "*a".toList ≠ []) (by decide)
    (by decide : TagLine.PairedUp " Hash[A] | [B]".toList)
    (by decide : [' '].all isBlank = true)
    (by decide : '\n' ∉ [' '] ++ (" Hash[A] | [B]".toList ++ "\t".toList))
    (fun c last => (Option.some.inj (ends.symm.trans last)).symm)
    (fun c first => (Option.some.inj (begins.symm.trans first)).symm) outside
  exact ⟨both.1, both.2⟩

end DocComment

end DuckInfer.Doc
