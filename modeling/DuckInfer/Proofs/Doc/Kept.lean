import DuckInfer.Proofs.Doc.Blocks
import Mathlib.Data.List.Forall2

/-!
What a documentation comment keeps of its lines. Main statement: the description and the tags keep
all visible characters, and so does the body of a directive, line by line, unless the indent that is
taken from its lines ends within a character of a visible line: nothing is left of such a line.
-/

namespace DuckInfer.Doc.DocComment

open Text List

/-! ### The parts of a comment -/

/-- The lines outside of tags. -/
def plainLines (blocks : List Block) : List (List Char) :=
  blocks.filterMap fun
    | .plain line => some line
    | .tagged _ => none

/-- The blocks of tags and directives. -/
def taggedBlocks (blocks : List Block) : List TagBlock :=
  blocks.filterMap fun
    | .plain _ => none
    | .tagged block => some block

theorem plainLines_eq (blocks : List Block) :
    blocks.filterMap plainLine? = (plainLines blocks).map trim := by
  induction blocks with
  | nil => rfl
  | cons block blocks ih => cases block <;> simp [plainLines, plainLine?] at ih ⊢ <;> exact ih

theorem tags_eq (blocks : List Block) :
    blocks.filterMap tag? = ((taggedBlocks blocks).filter (!·.line.directive)).map tagOf := by
  induction blocks with
  | nil => rfl
  | cons block blocks ih =>
    cases block with
    | plain line => exact ih
    | tagged block =>
      rw [taggedBlocks] at ih ⊢
      cases kind : block.line.directive <;> simp [tag?, kind, ih]

theorem directives_eq (blocks : List Block) :
    blocks.filterMap directive? =
      ((taggedBlocks blocks).filter (·.line.directive)).map directiveOf := by
  induction blocks with
  | nil => rfl
  | cons block blocks ih =>
    cases block with
    | plain line => exact ih
    | tagged block =>
      rw [taggedBlocks] at ih ⊢
      cases kind : block.line.directive <;> simp [directive?, kind, ih]

theorem visible_joinLines (lines : List (List Char)) :
    visible (joinLines lines) = lines.flatMap visible :=
  visible_intercalate (by decide) lines

theorem visible_description (blocks : List Block) :
    visible (ofBlocks blocks).description.toList = (plainLines blocks).flatMap visible := by
  rw [ofBlocks, String.toList_ofList, visible_trim, visible_joinLines, plainLines_eq,
    List.flatMap_map]
  simp only [visible_trim]

/-! ### Tags -/

theorem visible_appendLine (text line : List Char) :
    visible (appendLine text line) = visible text ++ visible line := by
  unfold appendLine
  split
  · rename_i empty
    rw [List.isEmpty_iff.mp empty]
    rfl
  · rw [visible_append, visible_cons_of_blank (by decide)]

theorem visible_foldl_appendLine (lines : List (List Char)) : ∀ text : List Char,
    visible (lines.foldl appendLine text) = visible text ++ lines.flatMap visible := by
  induction lines with
  | nil => simp
  | cons line lines ih =>
    intro text
    rw [List.foldl_cons, ih, visible_appendLine, List.flatMap_cons, List.append_assoc]

theorem flatMap_visible_filter (lines : List (List Char)) :
    ((lines.map trim).filter (!·.isEmpty)).flatMap visible = lines.flatMap visible := by
  induction lines with
  | nil => rfl
  | cons line lines ih =>
    rw [List.map_cons, List.filter_cons, List.flatMap_cons, ← visible_trim line, ← ih]
    cases trim line <;> simp [visible]

theorem visible_joinedText (block : TagBlock) :
    visible (joinedText block) =
      visible block.line.text.toList ++ block.continuation.flatMap visible := by
  rw [joinedText, visible_foldl_appendLine, flatMap_visible_filter]

/-- A tag with the text of its block. -/
structure KeepsTag (block : TagBlock) (tag : Tag) : Prop where
  name : tag.name = block.line.name
  types : tag.types = block.line.types
  text : visible ((tag.param.getD "").toList ++ tag.text.toList) =
    visible ((block.line.leadingWord.getD "").toList ++ block.line.text.toList) ++
      block.continuation.flatMap visible

theorem keepsTag_tagOf (block : TagBlock) : KeepsTag block (tagOf block) := by
  have whole := visible_joinedText block
  unfold tagOf
  dsimp only
  split
  · rename_i opens
    simp only [Bool.and_eq_true, Option.isNone_iff_eq_none] at opens
    refine ⟨rfl, rfl, ?_⟩
    rw [opens.1.1, visible_append, visible_append, Option.getD_some, String.toList_ofList,
      String.toList_ofList, visible_cutAtBlank, whole]
    rfl
  · refine ⟨rfl, rfl, ?_⟩
    rw [visible_append, visible_append, String.toList_ofList, whole, List.append_assoc]

/-! ### Lines of a body -/

/-- The lines of a block without the blank ones at the end, and these. -/
theorem exists_withoutBlankEnd (lines : List (List Char)) :
    ∃ blanks, lines = withoutBlankEnd lines ++ blanks ∧
      (∀ line ∈ blanks, isBlankLine line = true) ∧
      ∀ line ∈ (withoutBlankEnd lines).getLast?, isBlankLine line = false := by
  refine ⟨(lines.reverse.takeWhile isBlankLine).reverse, ?_, ?_, ?_⟩
  · rw [withoutBlankEnd, ← List.reverse_append, List.takeWhile_append_dropWhile,
      List.reverse_reverse]
  · intro line blank
    exact List.mem_takeWhile_imp (List.mem_reverse.mp blank)
  · intro line last
    have left := List.head?_dropWhile_not isBlankLine lines.reverse
    rw [withoutBlankEnd, List.getLast?_reverse, Option.mem_def] at last
    rw [last] at left
    simpa using left

/-- Blank lines at the end have no part in the common indent. -/
theorem commonIndent_append_blank {blanks : List (List Char)}
    (blank : ∀ line ∈ blanks, isBlankLine line = true) (lines : List (List Char)) :
    commonIndent (lines ++ blanks) = commonIndent lines := by
  have none : blanks.filter (!isBlankLine ·) = [] := by
    simpa [List.filter_eq_nil_iff] using blank
  rw [commonIndent, List.filter_append, none, List.append_nil, commonIndent]

theorem commonIndent_le {lines : List (List Char)} {line : List Char} (listed : line ∈ lines)
    (solid : isBlankLine line = false) : commonIndent lines ≤ indent line := by
  refine List.min?_getD_le_of_mem (List.mem_map_of_mem (List.mem_filter.mpr ⟨listed, ?_⟩))
  rw [solid]
  rfl

/-- What is left of a line when so many bytes are taken from its front. -/
structure KeepsLine (n : Nat) (line left : List Char) : Prop where
  oneLine : '\n' ∉ left
  cut : HasCut n line → ∃ front back, line = front ++ back ∧ byteSize front = n ∧
    isBlankLine front = true ∧ left = trimRight back
  uncut : ¬ HasCut n line → left = []

/-- From a line without visible characters, or with so many bytes of blanks in front, only blanks
are taken as long as a character ends there. -/
theorem keepsLine_dropBytes {n : Nat} {line : List Char} (single : '\n' ∉ line)
    (deep : isBlankLine line = true ∨ n ≤ indent line) :
    KeepsLine n line (trimRight (dropBytes n line)) := by
  have uncut : ¬ HasCut n line → trimRight (dropBytes n line) = [] := by
    intro through
    rw [dropBytes_of_not_hasCut through]
    rfl
  have cut : HasCut n line → ∃ front back, line = front ++ back ∧ byteSize front = n ∧
      isBlankLine front = true ∧ trimRight (dropBytes n line) = trimRight back := by
    rintro ⟨front, back, rfl, rfl⟩
    refine ⟨front, back, rfl, rfl, ?_, by rw [dropBytes_byteSize]⟩
    rcases deep with blank | deep
    · rw [isBlankLine, List.all_append] at blank
      exact (Bool.and_eq_true_iff.mp blank).1
    · have inside : front <+: (front ++ back).takeWhile isBlank :=
        isPrefix_of_byteSize_le (List.prefix_append front back) (List.takeWhile_prefix _) deep
      exact List.all_eq_true.mpr fun c member =>
        List.mem_takeWhile_imp (inside.subset member)
  refine ⟨fun feed => ?_, cut, uncut⟩
  by_cases through : HasCut n line
  · obtain ⟨front, back, rfl, -, -, left⟩ := cut through
    rw [left] at feed
    exact single (List.mem_append_right front ((trimRight_sublist back).subset feed))
  · rw [uncut through] at feed
    exact List.not_mem_nil feed

/-- All visible characters of a line are kept, or none. -/
theorem KeepsLine.visible_eq_iff {n : Nat} {line left : List Char} (keeps : KeepsLine n line left) :
    (visible left = visible line ↔ isBlankLine line = true ∨ HasCut n line) ∧
      (visible left = visible line ∨ visible left = []) := by
  by_cases through : HasCut n line
  · obtain ⟨front, back, whole, -, blank, same⟩ := keeps.cut through
    have equal : visible left = visible line := by
      rw [whole, same, visible_trimRight, visible_append, visible_eq_nil_iff.mpr blank,
        List.nil_append]
    exact ⟨⟨fun _ => Or.inr through, fun _ => equal⟩, Or.inl equal⟩
  · have none : visible left = [] := by
      rw [keeps.uncut through]
      rfl
    refine ⟨⟨fun equal => Or.inl ?_, fun blank => ?_⟩, Or.inr none⟩
    · exact visible_eq_nil_iff.mp (equal.symm.trans none)
    · rw [none, visible_eq_nil_iff.mpr (blank.resolve_right through)]

theorem length_flatMap_visible_le {n : Nat} {shown lines : List (List Char)}
    (keeps : Forall₂ (KeepsLine n) shown lines) :
    (lines.flatMap visible).length ≤ (shown.flatMap visible).length := by
  induction keeps with
  | nil => exact Nat.le_refl 0
  | cons first _ ih =>
    rw [List.flatMap_cons, List.flatMap_cons, List.length_append, List.length_append]
    rcases first.visible_eq_iff.2 with same | none
    · rw [same]
      omega
    · rw [none, List.length_nil]
      omega

/-- No line loses a visible character if the lines lose none together. -/
theorem flatMap_visible_eq_iff {n : Nat} {shown lines : List (List Char)}
    (keeps : Forall₂ (KeepsLine n) shown lines) :
    lines.flatMap visible = shown.flatMap visible ↔
      ∀ line ∈ shown, isBlankLine line = true ∨ HasCut n line := by
  induction keeps with
  | nil => simp
  | @cons line left shown lines first rest ih =>
    rw [List.forall_mem_cons, ← ih, ← first.visible_eq_iff.1, List.flatMap_cons, List.flatMap_cons]
    constructor
    · intro equal
      refine List.append_inj equal ?_
      have total := congrArg List.length equal
      have others := length_flatMap_visible_le rest
      rw [List.length_append, List.length_append] at total
      rcases first.visible_eq_iff.2 with same | none
      · rw [same]
      · rw [none] at total ⊢
        rw [List.length_nil] at total ⊢
        omega
    · rintro ⟨same, others⟩
      rw [same, others]

/-! ### Bodies of directives -/

/-- A directive with the lines of its block, but for the blank ones at the end. -/
structure KeepsDirective (block : TagBlock) (directive : Directive) : Prop where
  name : directive.name = block.line.name
  types : directive.types = block.line.types
  text : directive.text = block.line.text
  body : ∃ shown blanks lines, block.continuation = shown ++ blanks ∧
    (∀ line ∈ blanks, isBlankLine line = true) ∧
    (∀ line ∈ shown.getLast?, isBlankLine line = false) ∧
    directive.body.toList = joinLines lines ∧
    Forall₂ (KeepsLine (commonIndent block.continuation)) shown lines
  whole : visible directive.body.toList = block.continuation.flatMap visible ↔
    ∀ line ∈ block.continuation,
      isBlankLine line = true ∨ HasCut (commonIndent block.continuation) line

theorem keepsDirective_directiveOf {block : TagBlock}
    (single : ∀ line ∈ block.continuation, '\n' ∉ line) :
    KeepsDirective block (directiveOf block) := by
  obtain ⟨blanks, whole, blank, last⟩ := exists_withoutBlankEnd block.continuation
  have body : (directiveOf block).body.toList =
      joinLines (withoutIndent (withoutBlankEnd block.continuation)) :=
    String.toList_ofList
  generalize withoutBlankEnd block.continuation = shown at whole last body
  have common : commonIndent block.continuation = commonIndent shown := by
    rw [whole, commonIndent_append_blank blank]
  have lines : Forall₂ (KeepsLine (commonIndent block.continuation)) shown
      (withoutIndent shown) := by
    rw [withoutIndent, List.forall₂_map_right_iff, List.forall₂_same, common]
    intro line listed
    refine keepsLine_dropBytes (single line (whole ▸ List.mem_append_left blanks listed)) ?_
    cases solid : isBlankLine line with
    | true => exact Or.inl rfl
    | false => exact Or.inr (commonIndent_le listed solid)
  have blank' : ∀ line ∈ blanks,
      isBlankLine line = true ∨ HasCut (commonIndent block.continuation) line :=
    fun line listed => Or.inl (blank line listed)
  have nothing : blanks.flatMap visible = [] :=
    List.flatMap_eq_nil_iff.mpr fun line listed => visible_eq_nil_iff.mpr (blank line listed)
  refine ⟨rfl, rfl, rfl, ⟨shown, blanks, _, whole, blank, last, body, lines⟩, ?_⟩
  have kept := flatMap_visible_eq_iff lines
  generalize commonIndent block.continuation = n at kept blank' ⊢
  rw [body, visible_joinLines, whole, List.flatMap_append, nothing, List.append_nil, kept,
    List.forall_mem_append, and_iff_left blank']

/-! ### Whole comments -/

/-- The lines that continue a tag are lines of the comment. -/
theorem Divides.mem_of_mem_continuation {lines : List (List Char)} {blocks : List Block}
    (divides : Divides lines blocks) {block : TagBlock} (listed : block ∈ taggedBlocks blocks)
    {line : List Char} (member : line ∈ block.continuation) : line ∈ lines := by
  induction divides with
  | nil => exact absurd listed List.not_mem_nil
  | plain _ _ ih => exact List.mem_cons_of_mem _ (ih listed)
  | tagged _ _ _ _ ih =>
    rcases List.mem_cons.mp listed with rfl | listed
    · exact List.mem_append_left _ (List.mem_cons_of_mem _ member)
    · exact List.mem_append_right _ (ih listed)

/-- Every tag begins with a line of the comment. -/
theorem Divides.exists_header {lines : List (List Char)} {blocks : List Block}
    (divides : Divides lines blocks) {block : TagBlock} (listed : block ∈ taggedBlocks blocks) :
    ∃ line ∈ lines, TagLine.ofLine line = .ok block.line := by
  induction divides with
  | nil => exact absurd listed List.not_mem_nil
  | plain _ _ ih =>
    obtain ⟨line, member, read⟩ := ih listed
    exact ⟨line, List.mem_cons_of_mem _ member, read⟩
  | @tagged header own lines blocks block' opened _ _ _ ih =>
    rcases List.mem_cons.mp listed with rfl | listed
    · exact ⟨header, List.mem_cons_self, (ofLine?_eq_some opened).1⟩
    · obtain ⟨line, member, read⟩ := ih listed
      exact ⟨line, List.mem_append_right _ member, read⟩

/-- What a comment keeps of its lines. -/
theorem ofText_keeps (text : String) :
    (Text.lines text.toList).flatMap visible = visible text.toList ∧
      Divides (Text.lines text.toList) (blocks text) ∧
      (∀ line tag, TagLine.ofLine line = .ok tag → visible tag.spelled = visible line) ∧
      visible (ofText text).description.toList = (plainLines (blocks text)).flatMap visible ∧
      Forall₂ KeepsTag ((taggedBlocks (blocks text)).filter (!·.line.directive))
        (ofText text).tags ∧
      Forall₂ KeepsDirective ((taggedBlocks (blocks text)).filter (·.line.directive))
        (ofText text).directives := by
  have divides : Divides (Text.lines text.toList) (blocks text) := divides_blocksFrom _
  refine ⟨flatMap_visible_lines _, divides, fun _ _ => TagLine.visible_spelled_ofLine,
    visible_description _, ?_, ?_⟩
  · rw [ofText, ofBlocks, tags_eq, List.forall₂_map_right_iff, List.forall₂_same]
    exact fun block _ => keepsTag_tagOf block
  · rw [ofText, ofBlocks, directives_eq, List.forall₂_map_right_iff, List.forall₂_same]
    intro block listed
    exact keepsDirective_directiveOf fun line member => newline_not_mem_lines
      (divides.mem_of_mem_continuation (List.mem_filter.mp listed).1 member)

/-- The indent of the first line ends within the wide blank in front of the second one. -/
theorem body_loses_line :
    ¬ Forall₂ (fun block directive =>
        visible directive.body.toList = block.continuation.flatMap visible)
      ((taggedBlocks (blocks "@!macro [attach] property\n  foo\n\u3000bar")).filter
        (·.line.directive))
      (ofText "@!macro [attach] property\n  foo\n\u3000bar").directives := by
  decide

end DuckInfer.Doc.DocComment
