import WasmBackend.Proofs.Printed.Reading

/-!
# Nesting, read off the text

That lines nest can be checked in a text, line by line and with the indentation (`Text.balanced`):
the code of each function is found between its header and the parenthesis that closes it
(`Text.functions`), and nested lines pass the check (`Nested.balanced`). What is checked of a line
of code are its first word and, if it has to do with a label, the label; other operands are not
looked at.
-/

namespace WasmBackend

open Text Writer

variable {labels : List Label}

/-! ## Constructs in a text -/

namespace TextLine

/-- The first word of a line. -/
def word (l : TextLine) : String := .ofList (firstWord l.content)

/-- What comes after the first word and one blank. -/
def operand (l : TextLine) : List Char := l.content.drop ((firstWord l.content).length + 1)

theorem word_atLevel {text word operands : String} (h : Splits text word operands) (level : Nat) :
    (atLevel level text).word = word := h.opcode_eq

theorem operand_atLevel {word : String} (hword : isOpcode word = true) (operands : String)
    (level : Nat) : (atLevel level (word ++ (" " ++ operands))).operand = operands.toList := by
  have hfirst : firstWord (word ++ (" " ++ operands)).toList = word.toList := by
    have hsplits := congrArg String.toList (Splits.spaced hword operands).opcode_eq
    rwa [opcode, String.toList_ofList] at hsplits
  show (word ++ (" " ++ operands)).toList.drop
    ((firstWord (word ++ (" " ++ operands)).toList).length + 1) = _
  rw [hfirst, String.toList_append, ← List.drop_drop, List.drop_left]
  simp

end TextLine

namespace Text

/-- A construct that is open at some line. -/
inductive Construct where
  | labelled (label : List Char)
  | cond
  | alternative
  deriving DecidableEq

/-- The number of constructs that a line stands in and those that are open after it, innermost
first, unless it cannot stand there. -/
def advance (opened : List Construct) (word : String) (operand : List Char) :
    Option (Nat × List Construct) :=
  if word = "block" ∨ word = "loop" then some (opened.length, .labelled operand :: opened)
  else if word = "if" then some (opened.length, .cond :: opened)
  else if word = "else" then
    match opened with
    | .cond :: outer => some (outer.length, .alternative :: outer)
    | _ => none
  else if word = "end" then
    match opened with
    | _ :: outer => some (outer.length, outer)
    | [] => none
  else if word = "br" ∨ word = "br_if" then
    if .labelled operand ∈ opened then some (opened.length, opened) else none
  else some (opened.length, opened)

/-- Constructs are closed in turn, branches go to labels around them, and every line is indented by
two blanks for each level: the given ones, and one for each construct that it stands in. -/
def balanced (level : Nat) : List Construct → List TextLine → Bool
  | opened, [] => opened.isEmpty
  | opened, l :: rest =>
    match advance opened l.word l.operand with
    | some (inside, after) => l.indent == 2 * (level + inside) && balanced level after rest
    | none => false

/-- The label that a line opens, and whether it is that of a loop. -/
def opener? (word : String) (operand : List Char) : Option (Bool × List Char) :=
  if word = "loop" then some (true, operand)
  else if word = "block" then some (false, operand)
  else none

end Text

namespace Text

variable {level : Nat} {opened : List Construct} {l : Line} {rest : List Line}

/-- One line of the code that was written from a level on. -/
theorem balanced_levelled {inside n : Nat} {after : List Construct}
    (h : ∀ n, advance opened (TextLine.atLevel n l.text).word (TextLine.atLevel n l.text).operand =
      some (inside, after))
    (hlevel : l.level n = level + inside) (hafter : l.levelAfter n = level + after.length) :
    balanced level opened (Line.levelled n (l :: rest)) =
      balanced level after (Line.levelled (level + after.length) rest) := by
  rw [Line.levelled, balanced, h, hlevel, hafter]
  simp [TextLine.atLevel]

theorem balanced_labelled {isLoop : Bool} {label : Label} (h : l.opener? = some (isLoop, label)) :
    balanced level opened (Line.levelled (level + opened.length) (l :: rest)) =
      balanced level (.labelled label.text.toList :: opened)
        (Line.levelled (level + (Construct.labelled label.text.toList :: opened).length) rest) := by
  have hadvance (word : String) (hword : isOpcode word = true)
      (hopens : word = "block" ∨ word = "loop") (n : Nat) :
      advance opened (TextLine.atLevel n (word ++ (" " ++ label.text))).word
          (TextLine.atLevel n (word ++ (" " ++ label.text))).operand =
        some (opened.length, .labelled label.text.toList :: opened) := by
    rw [TextLine.word_atLevel (.spaced hword label.text), TextLine.operand_atLevel hword]
    exact if_pos hopens
  cases l with
  | block _ =>
    cases h
    exact balanced_levelled (hadvance "block" (by decide) (.inl rfl)) rfl rfl
  | loop _ =>
    cases h
    exact balanced_levelled (hadvance "loop" (by decide) (.inr rfl)) rfl rfl
  | instr | cond | otherwise | close => cases h

theorem balanced_cond (result : Option ValType) :
    balanced level opened (Line.levelled (level + opened.length) (.cond result :: rest)) =
      balanced level (.cond :: opened)
        (Line.levelled (level + (Construct.cond :: opened).length) rest) := by
  obtain ⟨operands, hsplits, -⟩ := Line.splits_cond result
  refine balanced_levelled (fun n => ?_) rfl rfl
  rw [TextLine.word_atLevel hsplits]
  rfl

theorem balanced_otherwise :
    balanced level (.cond :: opened)
        (Line.levelled (level + (Construct.cond :: opened).length) (.otherwise :: rest)) =
      balanced level (.alternative :: opened)
        (Line.levelled (level + (Construct.alternative :: opened).length) rest) :=
  balanced_levelled (fun _ => rfl) rfl rfl

theorem balanced_close (c : Construct) :
    balanced level (c :: opened) (Line.levelled (level + (c :: opened).length) (.close :: rest)) =
      balanced level opened (Line.levelled (level + opened.length) rest) :=
  balanced_levelled (fun _ => rfl) rfl rfl

theorem balanced_instr {i : Instr}
    (htarget : ∀ label, i.target? = some label → .labelled label.text.toList ∈ opened) :
    balanced level opened (Line.levelled (level + opened.length) (.instr i :: rest)) =
      balanced level opened (Line.levelled (level + opened.length) rest) := by
  refine balanced_levelled (fun n => ?_) rfl rfl
  have hbranch (word : String) (label : Label) (hword : isOpcode word = true)
      (hin : .labelled label.text.toList ∈ opened) (hbr : word = "br" ∨ word = "br_if") :
      advance opened (TextLine.atLevel n (word ++ (" " ++ label.text))).word
          (TextLine.atLevel n (word ++ (" " ++ label.text))).operand =
        some (opened.length, opened) := by
    rw [TextLine.word_atLevel (.spaced hword label.text), TextLine.operand_atLevel hword]
    rcases hbr with rfl | rfl <;> simp [advance, hin]
  cases htarget? : i.target? with
  | some label =>
    have hin := htarget label htarget?
    cases i with
    | branch _ =>
      cases htarget?
      exact hbranch "br" label (by decide) hin (.inl rfl)
    | branchIf _ =>
      cases htarget?
      exact hbranch "br_if" label (by decide) hin (.inr rfl)
    | _ => cases htarget?
  | none =>
    obtain ⟨word, operands, hsplits, -, hstill, -⟩ := i.text_reads
    have hstill := hstill htarget?
    simp only [isStill, isFlat, closes, opens, Bool.and_eq_true, Bool.not_eq_true',
      decide_eq_false_iff_not, bne_iff_ne, not_or] at hstill
    obtain ⟨⟨⟨⟨-, hend, helse⟩, hblock, hloop, hif, -⟩, hbr⟩, hbrIf⟩ := hstill
    show advance opened (TextLine.atLevel n i.text).word _ = _
    rw [TextLine.word_atLevel hsplits]
    simp [advance, hend, helse, hblock, hloop, hif, hbr, hbrIf]

end Text

/-- Nested lines leave the open constructs as they found them. The induction is on the nesting, over
whatever comes after the lines. -/
theorem Nested.balanced {ls : List Line} (h : Nested labels ls) {level : Nat}
    {opened : List Construct} (hlabels : ∀ l ∈ labels, .labelled l.text.toList ∈ opened)
    (rest : List Line) :
    balanced level opened (Line.levelled (level + opened.length) (ls ++ rest)) =
      balanced level opened (Line.levelled (level + opened.length) rest) := by
  have hinside {labels : List Label} {opened : List Construct} (label : Label)
      (h : ∀ l ∈ labels, .labelled l.text.toList ∈ opened) :
      ∀ l ∈ label :: labels, .labelled l.text.toList ∈
        Construct.labelled label.text.toList :: opened := by
    intro l hl
    rcases List.mem_cons.mp hl with rfl | hl
    · exact List.mem_cons_self
    · exact List.mem_cons_of_mem _ (h l hl)
  have harm {labels : List Label} {opened : List Construct} (c : Construct)
      (h : ∀ l ∈ labels, .labelled l.text.toList ∈ opened) :
      ∀ l ∈ labels, .labelled l.text.toList ∈ c :: opened :=
    fun l hl => List.mem_cons_of_mem _ (h l hl)
  induction h generalizing opened rest with
  | nil => rfl
  | instr htarget _ ih =>
    rw [List.cons_append, balanced_instr fun label hl => hlabels label (htarget label hl)]
    exact ih hlabels rest
  | labelled hopens _ _ ihInner ih =>
    rw [List.cons_append, balanced_labelled hopens, List.append_assoc,
      ihInner (hinside _ hlabels), List.cons_append, balanced_close, ih hlabels rest]
  | cond _ _ ihArm ih =>
    rw [List.cons_append, balanced_cond, List.append_assoc, ihArm (harm _ hlabels),
      List.cons_append, balanced_close, ih hlabels rest]
  | condElse _ _ _ ihThen ihElse ih =>
    rw [List.cons_append, balanced_cond, List.append_assoc, ihThen (harm _ hlabels),
      List.cons_append, balanced_otherwise, List.append_assoc, ihElse (harm _ hlabels),
      List.cons_append, balanced_close, ih hlabels rest]

theorem Line.opener?_text (l : Line) (level : Nat) :
    Text.opener? (TextLine.atLevel level l.text).word (TextLine.atLevel level l.text).operand =
      l.opener?.map fun o => (o.1, o.2.text.toList) := by
  have hlabelled (word : String) (label : Label) (hword : isOpcode word = true) :
      Text.opener? (TextLine.atLevel level (word ++ (" " ++ label.text))).word
          (TextLine.atLevel level (word ++ (" " ++ label.text))).operand =
        Text.opener? word label.text.toList := by
    rw [TextLine.word_atLevel (.spaced hword label.text), TextLine.operand_atLevel hword]
  cases l with
  | instr i =>
    obtain ⟨word, operands, hsplits, hflat, -, -⟩ := i.text_reads
    simp only [isFlat, opens, Bool.and_eq_true, Bool.not_eq_true', decide_eq_false_iff_not,
      not_or] at hflat
    show Text.opener? (TextLine.atLevel level i.text).word _ = none
    rw [TextLine.word_atLevel hsplits, Text.opener?, if_neg hflat.2.2.1, if_neg hflat.2.1]
  | block label => exact hlabelled "block" label (by decide)
  | loop label => exact hlabelled "loop" label (by decide)
  | cond result =>
    obtain ⟨operands, hsplits, -⟩ := splits_cond result
    rw [TextLine.word_atLevel hsplits]
    rfl
  | otherwise => rfl
  | close => rfl

/-! ## Functions of a text -/

namespace Text

/-- The code of the functions, the lines of one of them having been read up to some point. -/
def functionsFrom : Option (List TextLine) → List TextLine → List (List TextLine)
  | _, [] => []
  | none, l :: rest =>
    if (after? "(func ".toList l.content).isSome then functionsFrom (some []) rest
    else functionsFrom none rest
  | some code, l :: rest =>
    if l.content = ")".toList then code :: functionsFrom none rest
    else if (after? "(local ".toList l.content).isSome then functionsFrom (some code) rest
    else functionsFrom (some (code ++ [l])) rest

/-- The code of the functions of a text: what stands between the header of a function and the
parenthesis that closes it, without the declarations of locals. -/
def functions (text : List Char) : List (List TextLine) := functionsFrom none (lines text)

/-- The labels that lines open, each with whether it is that of a loop. -/
def openers (code : List TextLine) : List (Bool × List Char) :=
  code.filterMap fun l => opener? l.word l.operand

theorem readsOnly_after {start : String} {letter : Char} (h : Form letter start) :
    ReadsOnly letter (after? start.toList) := ReadsOnly.of_after h fun _ _ h => h

theorem functionsFrom_other {ls : List TextLine}
    (h : ∀ l ∈ ls, after? "(func ".toList l.content = none) (rest : List TextLine) :
    functionsFrom none (ls ++ rest) = functionsFrom none rest := by
  induction ls with
  | nil => rfl
  | cons l ls ih =>
    obtain ⟨hl, hls⟩ := List.forall_mem_cons.mp h
    rw [List.cons_append, functionsFrom, hl]
    exact ih hls

theorem functionsFrom_locals {ls : List TextLine} (h : ∀ l ∈ ls, l.content ≠ ")".toList ∧
    (after? "(local ".toList l.content).isSome = true) (code rest : List TextLine) :
    functionsFrom (some code) (ls ++ rest) = functionsFrom (some code) rest := by
  induction ls with
  | nil => rfl
  | cons l ls ih =>
    obtain ⟨hl, hls⟩ := List.forall_mem_cons.mp h
    rw [List.cons_append, functionsFrom, if_neg hl.1, if_pos hl.2]
    exact ih hls

theorem functionsFrom_code {ls : List TextLine} (h : ∀ l ∈ ls, l.content ≠ ")".toList ∧
    after? "(local ".toList l.content = none) (code rest : List TextLine) :
    functionsFrom (some code) (ls ++ rest) = functionsFrom (some (code ++ ls)) rest := by
  induction ls generalizing code with
  | nil => rw [List.append_nil, List.nil_append]
  | cons l ls ih =>
    obtain ⟨hl, hls⟩ := List.forall_mem_cons.mp h
    rw [List.cons_append, functionsFrom, if_neg hl.1, hl.2]
    simp only [Option.isSome_none, Bool.false_eq_true, if_false]
    rw [ih hls, List.append_assoc]
    rfl

end Text

namespace Wat.Module.Forms

variable {w : Module} (h : w.Forms)

include h

theorem functionsFrom_printed {f : Func} (hf : f ∈ w.funcs) (rest : List TextLine) :
    functionsFrom none (f.printed ++ rest) =
      Line.levelled 2 f.body.lines :: functionsFrom none rest := by
  have hheader : (after? "(func ".toList f.headerText.toList).isSome = true := by
    simp only [Func.headerText, String.append_assoc]
    rw [show "(func $" = "(func " ++ "$" from rfl, String.append_assoc, String.toList_append,
      after?_append]
    rfl
  have hlocals : ∀ l ∈ (f.locals.map localText).map (TextLine.atLevel 2),
      l.content ≠ ")".toList ∧ (after? "(local ".toList l.content).isSome = true := by
    intro l hl
    obtain ⟨_, ht, rfl⟩ := List.mem_map.mp hl
    obtain ⟨l, hmem, rfl⟩ := List.mem_map.mp ht
    refine ⟨fun heq => ?_, ?_⟩
    · have hform := (h.locals f hf l hmem).2
      rw [show (localText l).toList = ")".toList from heq] at hform
      cases hform
    · show (after? "(local ".toList (localText l).toList).isSome = true
      simp only [localText, String.append_assoc]
      rw [show "(local $" = "(local " ++ "$" from rfl, String.append_assoc, String.toList_append,
        after?_append]
      rfl
  have hcode : ∀ l ∈ Line.levelled 2 f.body.lines,
      l.content ≠ ")".toList ∧ after? "(local ".toList l.content = none := by
    intro l hl
    obtain ⟨l, hmem, level, rfl⟩ := Line.mem_levelled hl
    obtain ⟨-, c, tail, htext, hc⟩ := h.code f hf l hmem
    show l.text.toList ≠ ")".toList ∧ after? "(local ".toList l.text.toList = none
    rw [htext]
    refine ⟨?_, (readsOnly_after (show Form 'l' "(local " by decide)).code hc⟩
    rintro heq
    obtain rfl : c = ')' := (List.cons.inj heq).1
    cases hc
  have hclose : ∀ code, functionsFrom (some code) (.atLevel 1 ")" :: rest) =
      code :: functionsFrom none rest := fun code => rfl
  unfold Func.printed
  rw [List.cons_append, List.cons_append, List.cons_append, functionsFrom,
    if_pos (show (after? "(func ".toList (TextLine.atLevel 1 f.headerText).content).isSome = true
      from hheader), List.append_assoc, List.append_assoc, functionsFrom_locals hlocals,
    functionsFrom_code hcode, List.nil_append, List.singleton_append, hclose]

/-- The functions of a printed module are found in its text, with their code as it was written. -/
theorem functions_eq :
    functions w.text.toList = w.funcs.map fun f => Line.levelled 2 f.body.lines := by
  have hreads := readsOnly_after (show Form 'f' "(func " by decide)
  have hbefore : ∀ l ∈ TextLine.atLevel 0 "(module" ::
      (w.declarations.map Prod.snd).map (TextLine.atLevel 1),
      after? "(func ".toList l.content = none := by
    intro l hl
    rcases List.mem_cons.mp hl with rfl | hl
    · exact hreads.form (by decide) (show Form 'm' "(module" by decide)
    · simp only [List.mem_map] at hl
      obtain ⟨_, ⟨t, ht, rfl⟩, rfl⟩ := hl
      have hother : t.1 ≠ 'f' := by
        simp only [declarations, List.mem_append, List.mem_cons, List.mem_map] at ht
        rcases ht with (((rfl | ⟨_, -, rfl⟩) | ⟨_, -, rfl⟩) | ⟨_, -, rfl⟩) | ⟨_, -, rfl⟩ <;> simp
      exact hreads.form hother (h.forms t (List.mem_append_left _ ht))
  have hfuncs (rest : List TextLine) : ∀ funcs ⊆ w.funcs,
      functionsFrom none (funcs.flatMap Func.printed ++ rest) =
        (funcs.map fun f => Line.levelled 2 f.body.lines) ++ functionsFrom none rest := by
    intro funcs hsub
    induction funcs with
    | nil => rfl
    | cons f others ih =>
      rw [List.flatMap_cons, List.append_assoc,
        h.functionsFrom_printed (hsub List.mem_cons_self), List.map_cons, List.cons_append,
        ih fun g hg => hsub (List.mem_cons_of_mem _ hg)]
  rw [functions, h.lines_eq]
  unfold printed
  rw [List.append_assoc, List.append_assoc, functionsFrom_other hbefore,
    hfuncs _ w.funcs (List.Subset.refl _), List.append_right_eq_self]
  rfl

end Wat.Module.Forms

end WasmBackend
