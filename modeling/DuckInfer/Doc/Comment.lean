import DuckInfer.Doc.TagLine
import DuckInfer.Ty.Grammar

/-!
Documentation comments. The lines of a comment are description lines, or tag lines with the deeper
indented lines that follow them. A tag takes its continuation lines into its text, a directive keeps
them as its body.
-/

namespace DuckInfer.Doc

/-- A documentation tag. -/
structure Tag where
  name : String
  /-- the parameter that the tag is about -/
  param : Option String
  /-- the text between the brackets -/
  types : Option String
  text : String

/-- The type between the brackets; nothing is known without one. -/
def Tag.ty (tag : Tag) : Ty :=
  match tag.types with
  | some types => .ofTag types
  | none => .undefined

/-- An instruction to the documentation tool. -/
structure Directive where
  name : String
  types : Option String
  text : String
  body : String

/-- The directive defines or attaches a template. -/
def Directive.isTemplate (d : Directive) : Bool :=
  d.name == "macro"

/-- The first word of the text, such as the name of a template. -/
def Directive.firstWord? (d : Directive) : Option String :=
  (Text.firstWord? d.text.toList).map String.ofList

structure DocComment where
  description : String
  tags : List Tag
  directives : List Directive

namespace DocComment

/-! ### Blocks of lines -/

def isBlankLine (line : List Char) : Bool :=
  line.all Text.isBlank

/-- Size of the blanks in front of a line, in bytes. -/
def indent (line : List Char) : Nat :=
  Text.byteSize (line.takeWhile Text.isBlank)

/-- A tag line and the lines that belong to it. -/
structure TagBlock where
  line : TagLine
  indent : Nat
  continuation : List (List Char)

namespace TagBlock

/-- A block without continuation lines, if the line is a tag line. -/
def ofLine? (line : List Char) : Option TagBlock :=
  match TagLine.ofLine line with
  | .ok tag => some ⟨tag, DocComment.indent line, []⟩
  | .error _ => none

/-- A blank or deeper indented line continues the block. -/
def continues (block : TagBlock) (line : List Char) : Bool :=
  isBlankLine line || DocComment.indent line > block.indent

def push (block : TagBlock) (line : List Char) : TagBlock :=
  { block with continuation := block.continuation ++ [line] }

end TagBlock

/-- A part of a comment. -/
inductive Block where
  | plain (line : List Char)
  | tagged (block : TagBlock)

/-- Splits the lines that follow an open block. -/
def blocksFrom (current : Option TagBlock) : List (List Char) → List Block
  | [] => (current.map Block.tagged).toList
  | line :: rest =>
    match current.filter (·.continues line) with
    | some block => blocksFrom (some (block.push line)) rest
    | none =>
      (current.map Block.tagged).toList ++
        match TagBlock.ofLine? line with
        | some block => blocksFrom (some block) rest
        | none => .plain line :: blocksFrom none rest

def blocks (text : String) : List Block :=
  blocksFrom none (Text.lines text.toList)

/-! ### Tags and directives -/

/-- Tags about a named thing. Without a word before the bracket the name opens the text. -/
def subjectTags : List String :=
  ["param", "yieldparam", "option"]

/-- Adds a trimmed line to a text, behind a space unless the text is empty. -/
def appendLine (text line : List Char) : List Char :=
  if text.isEmpty then line else text ++ ' ' :: line

/-- The text of a tag with its continuation lines. -/
def joinedText (block : TagBlock) : List Char :=
  ((block.continuation.map Text.trim).filter (!·.isEmpty)).foldl appendLine block.line.text.toList

def tagOf (block : TagBlock) : Tag :=
  let line := block.line
  let text := joinedText block
  let (first, rest) := Text.cutAtBlank text
  if line.leadingWord.isNone && subjectTags.contains line.name && !first.isEmpty then
    ⟨line.name, some (String.ofList first), line.types, String.ofList rest⟩
  else ⟨line.name, line.leadingWord, line.types, String.ofList text⟩

/-- Lines without the blank lines at the end. -/
def withoutBlankEnd (lines : List (List Char)) : List (List Char) :=
  (lines.reverse.dropWhile isBlankLine).reverse

/-- The smallest indent of a visible line. -/
def commonIndent (lines : List (List Char)) : Nat :=
  (((lines.filter (!isBlankLine ·)).map indent).min?).getD 0

/-- Lines without their common indent and without blanks at their ends. -/
def withoutIndent (lines : List (List Char)) : List (List Char) :=
  lines.map fun line => Text.trimRight (Text.dropBytes (commonIndent lines) line)

def joinLines (lines : List (List Char)) : List Char :=
  ['\n'].intercalate lines

def directiveOf (block : TagBlock) : Directive :=
  { name := block.line.name
    types := block.line.types
    text := block.line.text
    body := String.ofList (joinLines (withoutIndent (withoutBlankEnd block.continuation))) }

/-- The trimmed line of a block outside of tags. -/
def plainLine? : Block → Option (List Char)
  | .plain line => some (Text.trim line)
  | .tagged _ => none

def tag? : Block → Option Tag
  | .plain _ => none
  | .tagged block => if block.line.directive then none else some (tagOf block)

def directive? : Block → Option Directive
  | .plain _ => none
  | .tagged block => if block.line.directive then some (directiveOf block) else none

/-- The documentation that blocks make up. -/
def ofBlocks (blocks : List Block) : DocComment :=
  { description := String.ofList (Text.trim (joinLines (blocks.filterMap plainLine?)))
    tags := blocks.filterMap tag?
    directives := blocks.filterMap directive? }

def ofText (text : String) : DocComment :=
  ofBlocks (blocks text)

/-! ### Questions -/

/-- The tags of a name, in order. -/
def tagsOf (doc : DocComment) (name : String) : List Tag :=
  doc.tags.filter (·.name == name)

def hasTag (doc : DocComment) (name : String) : Bool :=
  doc.tags.any (·.name == name)

/-- The union of the types of all `return` tags. -/
def returnTy (doc : DocComment) : Ty :=
  .unionAll ((doc.tagsOf "return").map Tag.ty)

/-- The documented type of a parameter. -/
def paramTy (doc : DocComment) (param : String) : Ty :=
  match (doc.tagsOf "param").find? (·.param == some param) with
  | some tag => tag.ty
  | none => .undefined

/-- The directives that define or attach templates. -/
def templates (doc : DocComment) : List Directive :=
  doc.directives.filter Directive.isTemplate

end DocComment

end DuckInfer.Doc
