import WasmBackend.Proofs.Printed.Characters

/-!
# Levels of printed code

A line of code is an opcode and its operands, and the opcode alone says whether the line opens or
closes a construct (`Line.text_word`). The lines of a body close what they open, whatever the body
was made from (`Body.closes`). So a writer that goes one level in and out with its lines is back
where it started and never below (`Body.follows`), and the text of a module can be given line by
line, each with its level (`Wat.Module.text_eq`).

Both hold of every body. Where branches go and which labels are opened is up to what is lowered, and
is not looked at here.
-/

namespace WasmBackend

/-! ## Lines -/

namespace Line

/-- Does the line open a construct? -/
def begins : Line → Bool
  | .block _ => true
  | .loop _ => true
  | .cond _ => true
  | _ => false

/-- Does the line end what was written before it? These lines stand with the one that opened their
construct. -/
def ends : Line → Bool
  | .otherwise => true
  | .close => true
  | _ => false

end Line

/-- Where an instruction may jump to. -/
def Instr.target? : Instr → Option Label
  | .branch label => some label
  | .branchIf label => some label
  | _ => none

/-- The name in an instruction. -/
def Instr.name? : Instr → Option String
  | .localGet name | .localSet name | .localTee name => some name
  | .globalGet name | .globalSet name | .call name => some name
  | _ => none

/-- The number of constructs that are open after these lines. -/
def openAfter (ls : List Line) : Nat := ls.countP Line.begins - ls.countP (· = .close)

/-- The number of constructs that a line stands in, after these lines. -/
def openAround (before : List Line) (l : Line) : Nat :=
  if l.ends then openAfter before - 1 else openAfter before

/-! ## Bodies close what they open -/

/-- The number of open constructs after one more line. -/
def Line.openAfter (l : Line) (n : Nat) : Nat :=
  n + (if l.begins then 1 else 0) - (if l = .close then 1 else 0)

/-- The lines can be read with this many constructs open, and close them all. -/
def Closes : Nat → List Line → Prop
  | n, [] => n = 0
  | n, l :: rest => (l.ends = true → 0 < n) ∧ Closes (l.openAfter n) rest

section

variable {n : Nat} {l : Line} {rest : List Line}

theorem Closes.cons_close (h : Closes n rest) : Closes (n + 1) (.close :: rest) :=
  ⟨fun _ => Nat.succ_pos n, h⟩

theorem Closes.cons_otherwise (h : Closes (n + 1) rest) : Closes (n + 1) (.otherwise :: rest) :=
  ⟨fun _ => Nat.succ_pos n, h⟩

theorem Closes.cons_begins (hl : l.begins = true) (h : Closes (n + 1) rest) :
    Closes n (l :: rest) := by
  cases l with
  | block | loop | cond => exact ⟨nofun, h⟩
  | instr | otherwise | close => cases hl

theorem Closes.cons_instr (i : Instr) (h : Closes n rest) : Closes n (.instr i :: rest) :=
  ⟨nofun, h⟩

theorem Code.closes (code : Code) (h : Closes n rest) : Closes n (code.lines ++ rest) := by
  induction code generalizing n rest with
  | nil => exact h
  | instr i tail ih => exact (ih h).cons_instr i
  | choose a b tail iha ihb ih =>
    have helse := (ihb (ih h).cons_close).cons_otherwise
    simpa [lines] using Closes.cons_begins rfl (iha helse)

theorem Body.closes (body : Body) (h : Closes n rest) : Closes n (body.lines ++ rest) := by
  induction body generalizing n rest with
  | done => exact h
  | run code tail ih => simpa [lines] using code.closes (ih h)
  | block label inner tail ihInner ih | loop label inner tail ihInner ih =>
    simpa [lines] using Closes.cons_begins rfl (ihInner (ih h).cons_close)
  | branch label tail ih => exact (ih h).cons_instr _
  | branchUnless condition label tail ih =>
    simpa [lines, branchUnlessLines] using
      condition.closes (((ih h).cons_instr (.branchIf label)).cons_instr .intEqz)
  | cond condition result thenArm tail ihThen ih =>
    have hif := Closes.cons_begins (l := .cond result) rfl (ihThen (ih h).cons_close)
    simpa [lines, condLines] using condition.closes hif
  | condElse condition result thenArm elseArm tail ihThen ihElse ih =>
    have helse := (ihElse (ih h).cons_close).cons_otherwise
    have hif := Closes.cons_begins (l := .cond result) rfl (ihThen helse)
    simpa [lines, condLines] using condition.closes hif
  | ret value tail ih => simpa [lines] using value.closes ((ih h).cons_instr .ret)
  | unreachable tail ih => exact (ih h).cons_instr _

/-- A line closes only what is open. -/
theorem Closes.close_le (h : Closes n (l :: rest)) : (if l = .close then 1 else 0) ≤ n := by
  split
  · next hl => exact h.1 (hl ▸ rfl)
  · exact Nat.zero_le n

/-- A part of the lines closes no more than is open, and the rest closes what it leaves open. -/
theorem Closes.split {before after : List Line} (h : Closes n (before ++ after)) :
    before.countP (· = .close) ≤ n + before.countP Line.begins ∧
      Closes (n + before.countP Line.begins - before.countP (· = .close)) after := by
  induction before generalizing n with
  | nil => exact ⟨Nat.zero_le _, h⟩
  | cons l rest ih =>
    have hclose := Closes.close_le h
    obtain ⟨hle, hrest⟩ := ih h.2
    simp only [List.countP_cons, decide_eq_true_eq]
    unfold Line.openAfter at hle hrest
    refine ⟨by omega, ?_⟩
    rw [show n + (rest.countP Line.begins + if l.begins = true then 1 else 0) -
        (rest.countP (· = .close) + if l = .close then 1 else 0) =
        n + (if l.begins = true then 1 else 0) - (if l = .close then 1 else 0) +
          rest.countP Line.begins - rest.countP (· = .close) by omega]
    exact hrest

end

/-! ## Opcodes -/

/-- A word is told from what follows it by a blank. -/
theorem Text.firstWord_append {word rest : List Char} (hword : ∀ c ∈ word, isBlank c = false)
    (hne : word ≠ []) (hrest : rest.head?.all isBlank = true) :
    firstWord (word ++ rest) = word := by
  obtain ⟨first, others, rfl⟩ := List.exists_cons_of_ne_nil hne
  have hfirst : isBlank first = false := hword first List.mem_cons_self
  unfold firstWord
  rw [List.cons_append, List.dropWhile_cons_of_neg (by simp [hfirst]), ← List.cons_append,
    List.takeWhile_append_of_pos (by simpa using hword)]
  cases rest with
  | nil => simp
  | cons c rest =>
    have hc : isBlank c = true := by simpa using hrest
    rw [List.takeWhile_cons_of_neg (by simp [hc]), List.append_nil]

namespace Writer

/-- The words that code lines begin with: no blanks, and a letter first. -/
def isOpcode (word : String) : Bool :=
  word.toList.all (fun c => Text.isWordChar c && !Text.isBlank c) &&
    word.toList.head?.any Char.isLower

/-- The words of instructions: they leave the level as it is. -/
def isFlat (word : String) : Bool := isOpcode word && !closes word && !opens word

/-- The words of instructions that are no branches. -/
def isStill (word : String) : Bool := isFlat word && word != "br" && word != "br_if"

/-- The text is an opcode and then, after a blank, its operands. -/
structure Splits (text word operands : String) : Prop where
  eq : text = word ++ operands
  isOpcode : isOpcode word = true
  blank : operands.toList.head?.all Text.isBlank = true

namespace Splits

variable {text word operands : String}

theorem alone (h : Writer.isOpcode word = true) : Splits word word "" :=
  ⟨String.append_empty.symm, h, rfl⟩

theorem spaced (h : Writer.isOpcode word = true) (operands : String) :
    Splits (word ++ (" " ++ operands)) word (" " ++ operands) := by
  refine ⟨rfl, h, ?_⟩
  rw [String.toList_append]
  rfl

/-- A code line begins with a letter. -/
theorem head (h : Splits text word operands) :
    ∃ c rest, text.toList = c :: rest ∧ c.isLower = true := by
  have hword := h.isOpcode
  unfold Writer.isOpcode at hword
  rw [Bool.and_eq_true] at hword
  rw [h.eq, String.toList_append]
  cases hchars : word.toList with
  | nil => simp [hchars] at hword
  | cons c rest =>
    rw [hchars] at hword
    exact ⟨c, rest ++ operands.toList, rfl, hword.2⟩

theorem opcode_eq (h : Splits text word operands) : opcode text = word := by
  have hword := h.isOpcode
  unfold Writer.isOpcode at hword
  rw [Bool.and_eq_true, List.all_eq_true] at hword
  have hblank : ∀ c ∈ word.toList, Text.isBlank c = false := by
    intro c hc
    have hc := hword.1 c hc
    rw [Bool.and_eq_true] at hc
    simpa using hc.2
  have hne : word.toList ≠ [] := by
    intro hnil
    simp [hnil] at hword
  rw [opcode, h.eq, String.toList_append, Text.firstWord_append hblank hne h.blank,
    String.ofList_toList]

/-- An opcode is a word, so the text avoids what its operands avoid. -/
theorem avoids {c : Char} (hc : c ∈ Text.separators) (h : Splits text word operands)
    (hoperands : Text.Avoids c operands) : Text.Avoids c text := by
  rw [h.eq]
  refine .append (Text.OneWord.avoids ?_ hc) hoperands
  have hword := h.isOpcode
  unfold Writer.isOpcode at hword
  rw [Bool.and_eq_true, List.all_eq_true] at hword
  refine List.all_eq_true.mpr fun c hmem => ?_
  have hc := hword.1 c hmem
  rw [Bool.and_eq_true] at hc
  exact hc.1

end Splits

end Writer

open Writer

namespace Instr

/-- The text is an opcode, that of a branch only if the instruction is one, and operands that hold
no separator if the name in the instruction holds none. -/
def Reads (i : Instr) (text : String) : Prop :=
  ∃ word operands, Splits text word operands ∧ isFlat word = true ∧
    (i.target? = none → isStill word = true) ∧
    ∀ c ∈ Text.separators, (∀ n, i.name? = some n → Text.Avoids c n) → Text.Avoids c operands

theorem isFlat_of_isStill {word : String} (h : isStill word = true) : isFlat word = true := by
  simp only [isStill, Bool.and_eq_true] at h
  exact h.1.1

theorem isOpcode_of_isFlat {word : String} (h : isFlat word = true) : isOpcode word = true := by
  simp only [isFlat, Bool.and_eq_true] at h
  exact h.1.1

section

variable {i : Instr} (word : String)

theorem reads_alone (h : isStill word = true) : i.Reads word :=
  have hflat := isFlat_of_isStill h
  ⟨word, "", .alone (isOpcode_of_isFlat hflat), hflat, fun _ => h,
    fun _ hc _ => .literal hc (by decide)⟩

theorem reads_word (h : isStill word = true) {operands : String}
    (hoperands : Text.OneWord operands) :
    i.Reads (word ++ (" " ++ operands)) :=
  have hflat := isFlat_of_isStill h
  ⟨word, _, .spaced (isOpcode_of_isFlat hflat) operands, hflat, fun _ => h,
    fun _ hc _ => .append (.literal hc (by decide)) (hoperands.avoids hc)⟩

theorem reads_name (h : isStill word = true) {name : String} (hname : i.name? = some name) :
    i.Reads (word ++ (" " ++ ("$" ++ name))) :=
  have hflat := isFlat_of_isStill h
  ⟨word, _, .spaced (isOpcode_of_isFlat hflat) _, hflat, fun _ => h,
    fun _ hc hnames => .append (.literal hc (by decide))
      (.append (.literal hc (by decide)) (hnames name hname))⟩

theorem reads_branch (h : isFlat word = true) {label : Label} (htarget : i.target? = some label) :
    i.Reads (word ++ (" " ++ label.text)) := by
  refine ⟨word, _, .spaced (isOpcode_of_isFlat h) _, h, ?_, ?_⟩
  · intro hnone
    rw [htarget] at hnone
    cases hnone
  · exact fun _ hc _ => .append (.literal hc (by decide)) ((Text.word_label label).avoids hc)

theorem reads_withOffset (h : isStill word = true) (offset : Nat) :
    i.Reads (withOffset word offset) := by
  unfold withOffset
  split
  · exact reads_alone word h
  · rw [show " offset=" = " " ++ "offset=" from rfl, String.append_assoc, String.append_assoc]
    exact reads_word word h (.append (by decide) (Text.word_nat offset))

end

/-- Whatever names an instruction holds, its opcode neither opens nor closes. -/
theorem text_reads (i : Instr) : i.Reads i.text := by
  cases i with
  | intConst value => exact reads_word "i32.const" (by decide) (Text.word_int value)
  | floatConst value =>
    exact reads_word "f32.const" (by decide) (Text.word_floatLiteral value)
  | intBinary op => exact reads_alone _ (by cases op <;> decide)
  | floatBinary op => exact reads_alone _ (by cases op <;> decide)
  | load s offset => exact reads_withOffset _ (by cases s <;> decide) offset
  | store s offset => exact reads_withOffset _ (by cases s <;> decide) offset
  | localGet name => exact reads_name "local.get" (by decide) rfl
  | localSet name => exact reads_name "local.set" (by decide) rfl
  | localTee name => exact reads_name "local.tee" (by decide) rfl
  | globalGet name => exact reads_name "global.get" (by decide) rfl
  | globalSet name => exact reads_name "global.set" (by decide) rfl
  | call name => exact reads_name "call" (by decide) rfl
  | branch label => exact reads_branch "br" (by decide) rfl
  | branchIf label => exact reads_branch "br_if" (by decide) rfl
  | intEqz | floatNeg | floatOfInt | intOfFloat | drop | ret | unreachable =>
    exact reads_alone _ (by decide)

end Instr

namespace Line

theorem splits_labelled (word : String) (label : Label) (h : isOpcode word = true) :
    Splits (word ++ (" " ++ label.text)) word (" " ++ label.text) := .spaced h label.text

theorem splits_cond (result : Option ValType) :
    ∃ operands, Splits (text (.cond result)) "if" operands ∧ Text.OneLine operands := by
  cases result with
  | none => exact ⟨"", .alone (by decide), by decide⟩
  | some t =>
    refine ⟨" (result " ++ t.text ++ ")", ⟨?_, by decide, ?_⟩, ?_⟩
    · cases t <;> rfl
    · cases t <;> rfl
    · cases t <;> decide

/-- What a writer makes of a line is what the line is. -/
theorem text_word (l : Line) :
    closes (opcode l.text) = l.ends ∧
      opens (opcode l.text) = (l.begins || decide (l = .otherwise)) := by
  cases l with
  | instr i =>
    obtain ⟨word, operands, hsplits, hflat, -, -⟩ := i.text_reads
    simp only [isFlat, Bool.and_eq_true, Bool.not_eq_true'] at hflat
    show closes (opcode i.text) = false ∧ opens (opcode i.text) = false
    rw [hsplits.opcode_eq]
    exact ⟨hflat.1.2, hflat.2⟩
  | block label =>
    rw [show opcode (text (.block label)) = "block" from
      (splits_labelled "block" label (by decide)).opcode_eq]
    exact ⟨rfl, rfl⟩
  | loop label =>
    rw [show opcode (text (.loop label)) = "loop" from
      (splits_labelled "loop" label (by decide)).opcode_eq]
    exact ⟨rfl, rfl⟩
  | cond result =>
    obtain ⟨_, hsplits, -⟩ := splits_cond result
    rw [hsplits.opcode_eq]
    exact ⟨rfl, rfl⟩
  | otherwise => exact ⟨rfl, rfl⟩
  | close => exact ⟨rfl, rfl⟩

/-- A line of code begins with a letter, and is one line if the name in it is. -/
theorem text_code {l : Line} (h : ∀ i, l = .instr i → ∀ n, i.name? = some n → Text.OneLine n) :
    Text.OneLine l.text ∧ ∃ c rest, l.text.toList = c :: rest ∧ c.isLower = true := by
  have hlabelled (word : String) (label : Label) (hword : isOpcode word = true) :
      Text.OneLine (word ++ (" " ++ label.text)) ∧
        ∃ c rest, (word ++ (" " ++ label.text)).toList = c :: rest ∧ c.isLower = true :=
    have hsplits := splits_labelled word label hword
    ⟨hsplits.avoids (by decide) (.append (by decide) ((Text.word_label label).avoids (by decide))),
      hsplits.head⟩
  cases l with
  | instr i =>
    obtain ⟨word, operands, hsplits, -, -, hoperands⟩ := i.text_reads
    exact ⟨hsplits.avoids (by decide) (hoperands _ (by decide) (h i rfl)), hsplits.head⟩
  | block label => exact hlabelled "block" label (by decide)
  | loop label => exact hlabelled "loop" label (by decide)
  | cond result =>
    obtain ⟨_, hsplits, hoperands⟩ := splits_cond result
    exact ⟨hsplits.avoids (by decide) hoperands, hsplits.head⟩
  | otherwise => exact ⟨by decide, _, _, rfl, rfl⟩
  | close => exact ⟨by decide, _, _, rfl, rfl⟩

/-! ## Writing -/

/-- The level of a line, when the writer is at this one before it. -/
def level (l : Line) (n : Nat) : Nat := if l.ends then n - 1 else n

/-- The level after a line. -/
def levelAfter (l : Line) (n : Nat) : Nat :=
  if l.begins || decide (l = .otherwise) then l.level n + 1 else l.level n

end Line

namespace Writer

/-- A line of code goes one level back first if it ends something, and one level in afterwards if
it begins something. -/
theorem code_text (w : Writer) (l : Line) :
    w.code l.text =
      { depth := l.levelAfter w.depth
        output := w.output ++ String.ofList (List.replicate (2 * l.level w.depth) ' ') ++ l.text ++
          "\n" } := by
  obtain ⟨hcloses, hopens⟩ := l.text_word
  simp only [code, hcloses, hopens, Line.levelAfter, Line.level]
  cases l.ends <;> cases (l.begins || decide (l = .otherwise)) <;> rfl

/-- The level after a line, above one where nothing is open. -/
theorem code_depth {w : Writer} {l : Line} {start n : Nat} (hdepth : w.depth = start + n)
    (hends : l.ends = true → 0 < n) : (w.code l.text).depth = start + l.openAfter n := by
  rw [code_text, hdepth]
  cases l with
  | instr => rfl
  | block | loop | cond => rfl
  | otherwise =>
    have hpos := hends rfl
    show start + n - 1 + 1 = start + n
    omega
  | close =>
    have hpos := hends rfl
    show start + n - 1 = start + (n - 1)
    omega

theorem lines_cons (w : Writer) (l : Line) (rest : List Line) :
    w.lines (l :: rest) = (w.code l.text).lines rest := rfl

theorem lines_concat (w : Writer) (before : List Line) (l : Line) :
    w.lines (before ++ [l]) = (w.lines before).code l.text := by
  simp [lines, codes]

/-- The run of a writer over lines that close what they open: the induction is on the part that has
been written, with the number of open constructs going along. -/
theorem lines_depth {w : Writer} {start n : Nat} {before after : List Line}
    (h : Closes n (before ++ after)) (hdepth : w.depth = start + n) :
    (w.lines before).depth =
      start + (n + before.countP Line.begins - before.countP (· = .close)) := by
  induction before generalizing w n with
  | nil => exact hdepth
  | cons l rest ih =>
    have hclose := Closes.close_le h
    rw [lines_cons, ih h.2 (code_depth hdepth h.1)]
    simp only [List.countP_cons, decide_eq_true_eq, Line.openAfter]
    omega

/-- The writer keeps its level in step with the constructs that are open: it is never below where it
started, and back there at the end; every line is indented by two blanks for each construct it
stands in. -/
structure Follows (w : Writer) (ls : List Line) : Prop where
  depth : ∀ before after, ls = before ++ after →
    (w.lines before).depth = w.depth + openAfter before
  dedent : ∀ before l after, ls = before ++ l :: after → closes (opcode l.text) = true →
    w.depth < (w.lines before).depth
  back : (w.lines ls).depth = w.depth
  indented : ∀ before l after, ls = before ++ l :: after →
    (w.lines (before ++ [l])).output = (w.lines before).output ++
      String.ofList (List.replicate (2 * (w.depth + openAround before l)) ' ') ++ l.text ++ "\n"

end Writer

/-- A writer keeps step with every body. -/
theorem Body.follows (body : Body) (w : Writer) : w.Follows body.lines := by
  have hcloses : Closes 0 body.lines := by
    simpa using body.closes (show Closes 0 [] from rfl)
  have hdepth : ∀ before after, body.lines = before ++ after →
      (w.lines before).depth = w.depth + openAfter before := by
    intro before after hsplit
    rw [hsplit] at hcloses
    rw [Writer.lines_depth hcloses (show w.depth = w.depth + 0 from rfl), Nat.zero_add]
    rfl
  -- A line that ends something has something open before it.
  have hopen : ∀ before l after, body.lines = before ++ l :: after → l.ends = true →
      0 < openAfter before := by
    intro before l after hsplit hends
    rw [hsplit] at hcloses
    have hrest := hcloses.split.2
    rw [Nat.zero_add] at hrest
    exact hrest.1 hends
  refine ⟨hdepth, ?_, ?_, ?_⟩
  · intro before l after hsplit hword
    rw [l.text_word.1] at hword
    rw [hdepth before _ hsplit]
    exact Nat.lt_add_of_pos_right (hopen before l after hsplit hword)
  · have hend : openAfter body.lines = 0 := by
      rw [← List.append_nil body.lines] at hcloses
      simpa [openAfter, Closes] using hcloses.split.2
    rw [hdepth body.lines [] (List.append_nil _).symm, hend, Nat.add_zero]
  · intro before l after hsplit
    rw [Writer.lines_concat, Writer.code_text, hdepth before _ hsplit]
    by_cases hends : l.ends = true
    · have hpos := hopen before l after hsplit hends
      simp only [Line.level, hends, if_true, openAround]
      rw [Nat.add_sub_assoc hpos]
    · simp only [Line.level, hends, if_false, openAround, Bool.false_eq_true]

/-! ## Modules, line by line -/

/-- A line of a text: how far it is indented, and what it says. -/
structure TextLine where
  indent : Nat
  content : List Char
  deriving DecidableEq

namespace TextLine

/-- A line that is written at this level. -/
def atLevel (level : Nat) (text : String) : TextLine := ⟨2 * level, text.toList⟩

def chars (l : TextLine) : List Char := List.replicate l.indent ' ' ++ l.content

/-- Lines as a text. -/
def print (ls : List TextLine) : List Char := ls.flatMap fun l => l.chars ++ ['\n']

theorem print_append (a b : List TextLine) : print (a ++ b) = print a ++ print b :=
  List.flatMap_append

end TextLine

/-- The lines of code as they are written from this level on. -/
def Line.levelled (n : Nat) : List Line → List TextLine
  | [] => []
  | l :: rest => .atLevel (l.level n) l.text :: levelled (l.levelAfter n) rest

namespace Writer

/-- The second writer holds the output of the first and then these lines. -/
def Prints (w w' : Writer) (ls : List TextLine) : Prop :=
  w'.output.toList = w.output.toList ++ TextLine.print ls

namespace Prints

variable {w w₁ w₂ : Writer} {a b : List TextLine}

theorem trans (h : w.Prints w₁ a) (h' : w₁.Prints w₂ b) : w.Prints w₂ (a ++ b) := by
  unfold Prints at *
  rw [h', h, TextLine.print_append, List.append_assoc]

theorem line (w : Writer) (text : String) : w.Prints (w.line text) [.atLevel w.depth text] := by
  simp [Prints, Writer.line, TextLine.print, TextLine.chars, TextLine.atLevel]

/-- A line that is written after going one level back. -/
theorem dedent_line {level : Nat} (hdepth : w.depth = level + 1) (text : String) :
    w.Prints (w.dedent.line text) [.atLevel level text] := by
  have hback : w.dedent.depth = level := congrArg (· - 1) hdepth
  rw [← hback]
  exact line w.dedent text

/-- What each step of a loop prints that stays at one level, the loop prints. -/
theorem foldl {α : Type} {step : Writer → α → Writer} {printed : α → List TextLine} {level : Nat}
    (hstep : ∀ w a, w.depth = level → w.Prints (step w a) (printed a) ∧ (step w a).depth = level)
    (l : List α) (hdepth : w.depth = level) :
    w.Prints (l.foldl step w) (l.flatMap printed) ∧ (l.foldl step w).depth = level := by
  induction l generalizing w with
  | nil => exact ⟨by simp [Prints, TextLine.print], hdepth⟩
  | cons a rest ih =>
    obtain ⟨hfirst, hlevel⟩ := hstep w a hdepth
    obtain ⟨hrest, hend⟩ := ih hlevel
    exact ⟨hfirst.trans hrest, hend⟩

theorem foldl_line (texts : List String) {level : Nat} (hdepth : w.depth = level) :
    w.Prints (texts.foldl Writer.line w) (texts.map (.atLevel level)) ∧
      (texts.foldl Writer.line w).depth = level := by
  have hstep : ∀ (w : Writer) text, w.depth = level →
      w.Prints (w.line text) [.atLevel level text] ∧ (w.line text).depth = level := by
    rintro w text rfl
    exact ⟨line w text, rfl⟩
  rw [List.map_eq_flatMap]
  exact foldl hstep texts hdepth

theorem lines (w : Writer) (ls : List Line) : w.Prints (w.lines ls) (Line.levelled w.depth ls) := by
  induction ls generalizing w with
  | nil => simp [Prints, Writer.lines, codes, TextLine.print, Line.levelled]
  | cons l rest ih =>
    have hfirst : w.Prints (w.code l.text) [.atLevel (l.level w.depth) l.text] := by
      rw [code_text]
      simp [Prints, TextLine.print, TextLine.chars, TextLine.atLevel]
    have hrest := ih (w.code l.text)
    rw [show (w.code l.text).depth = l.levelAfter w.depth by rw [code_text]] at hrest
    exact hfirst.trans hrest

end Prints

end Writer

namespace Wat

/-- The lines of a function. -/
def Func.printed (f : Func) : List TextLine :=
  .atLevel 1 f.headerText :: (f.locals.map localText).map (.atLevel 2) ++
    Line.levelled 2 f.body.lines ++
    [.atLevel 1 ")"]

/-- The lines of a module before its functions, each with the letter that tells what it declares. -/
def Module.declarations (m : Module) : List (Char × String) :=
  ('i', m.memory.text) :: m.types.map (fun t => ('t', t.text)) ++
    m.imports.map (fun i => ('i', i.text)) ++ m.globals.map (fun g => ('g', g.text)) ++
    m.data.map fun b => ('d', dataText b)

/-- The lines of a module. -/
def Module.printed (m : Module) : List TextLine :=
  .atLevel 0 "(module" :: (m.declarations.map Prod.snd).map (.atLevel 1) ++
    m.funcs.flatMap Func.printed ++ [.atLevel 0 ")"]

theorem Func.write_prints (w : Writer) (f : Func) (hdepth : w.depth = 1) :
    w.Prints (f.write w) f.printed ∧ (f.write w).depth = 1 := by
  have hheader : w.Prints (w.line f.headerText).indent [.atLevel 1 f.headerText] :=
    hdepth ▸ Writer.Prints.line w _
  have hinside : (w.line f.headerText).indent.depth = 2 := congrArg (· + 1) hdepth
  obtain ⟨hlocals, hlevel⟩ := Writer.Prints.foldl_line (f.locals.map localText) hinside
  generalize hstart :
    (f.locals.map localText).foldl Writer.line (w.line f.headerText).indent = start
  rw [hstart] at hlocals hlevel
  have hbody := Writer.Prints.lines start f.body.lines
  have hback : (start.lines f.body.lines).depth = 2 := (f.body.follows start).back.trans hlevel
  have hwrite : f.write w = (start.lines f.body.lines).dedent.line ")" := by
    rw [← hstart]
    rfl
  rw [hlevel] at hbody
  rw [hwrite]
  exact ⟨((hheader.trans hlocals).trans hbody).trans (.dedent_line hback ")"),
    congrArg (· - 1) hback⟩

/-- The text of a module is its lines. -/
theorem Module.text_eq (m : Module) : m.text.toList = TextLine.print m.printed := by
  have hopen : ({} : Writer).Prints (({} : Writer).line "(module").indent [.atLevel 0 "(module"] :=
    .line {} _
  obtain ⟨hheader, hlevel⟩ := Writer.Prints.foldl_line (m.declarations.map Prod.snd)
    (show (({} : Writer).line "(module").indent.depth = 1 from rfl)
  obtain ⟨hfuncs, hend⟩ := Writer.Prints.foldl Func.write_prints m.funcs hlevel
  have htexts : m.declarations.map Prod.snd = m.memory.text :: m.types.map FuncType.text ++
      m.imports.map Import.text ++ m.globals.map Global.text ++ m.data.map dataText := by
    simp [declarations, Function.comp_def]
  unfold text
  rw [← htexts]
  exact ((hopen.trans hheader).trans hfuncs).trans (.dedent_line hend ")")

end Wat

end WasmBackend
