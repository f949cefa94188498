import WasmBackend.Proofs.Printed.Levels
import WasmBackend.Proofs.Scoping.Module

/-!
# Reading a printed module line by line

A text is read as lines, each with its indentation (`Text.lines`). A printed module reads as the
lines that it was printed from (`Wat.Module.Forms.lines_eq`), provided that the names in it hold no
line break: names are printed as they are, and one with a line break makes a line of its own.

A line outside of code is a form, and its first letter tells what it declares (`Text.Form`). So what
reads only forms with one letter reads nothing but those (`Wat.Module.Forms.read_eq`). What a form
says is left to those who read it. The names in a function's code need not be asked about: code of a
well-scoped module names only what is declared.
-/

namespace WasmBackend

open Text

/-! ## Lines of a text -/

/-- A line, told apart from its indentation. -/
def TextLine.ofChars (cs : List Char) : TextLine :=
  ⟨(cs.takeWhile (· == ' ')).length, cs.dropWhile (· == ' ')⟩

namespace Text

/-- What stands between line breaks. -/
def lines (text : List Char) : List TextLine := (text.splitOn '\n').map TextLine.ofChars

/-- What can be read off the lines of a text, one by one and whatever their indentation. -/
def readAll {α : Type} (line? : List Char → Option α) (text : List Char) : List α :=
  (lines text).flatMap fun l => (line? l.content).toList

end Text

/-- The line is one line, and its indentation is all there is. -/
structure TextLine.Clean (l : TextLine) : Prop where
  noBreak : '\n' ∉ l.content
  noBlank : l.content.head? ≠ some ' '

theorem TextLine.ofChars_chars {l : TextLine} (h : l.Clean) : ofChars l.chars = l := by
  obtain ⟨indent, content⟩ := l
  have hblanks : ∀ c ∈ List.replicate indent ' ', (c == ' ') = true := by
    intro c hc
    simp [List.eq_of_mem_replicate hc]
  have hstop : content.takeWhile (· == ' ') = [] ∧ content.dropWhile (· == ' ') = content := by
    cases content with
    | nil => exact ⟨rfl, rfl⟩
    | cons c rest =>
      have hc : c ≠ ' ' := fun hc => h.noBlank (by rw [hc]; rfl)
      simp [hc]
  unfold ofChars chars
  rw [List.takeWhile_append_of_pos hblanks, List.dropWhile_append_of_pos hblanks, hstop.1, hstop.2]
  simp

/-- Printed lines read back, and an empty one comes after the last break. -/
theorem Text.lines_print {ls : List TextLine} (h : ∀ l ∈ ls, l.Clean) :
    lines (TextLine.print ls) = ls ++ [⟨0, []⟩] := by
  unfold lines
  induction ls with
  | nil => rfl
  | cons l rest ih =>
    have hl := h l List.mem_cons_self
    have hchars : '\n' ∉ l.chars := by
      intro hmem
      rcases List.mem_append.mp hmem with hmem | hmem
      · exact absurd (List.eq_of_mem_replicate hmem) (by decide)
      · exact hl.noBreak hmem
    have hprint : TextLine.print (l :: rest) = l.chars ++ '\n' :: TextLine.print rest := by
      simp [TextLine.print]
    rw [hprint, List.splitOn_append_cons_self, List.splitOn_eq_singleton hchars, List.map_append,
      ih fun l hl => h l (List.mem_cons_of_mem _ hl), List.map_singleton,
      TextLine.ofChars_chars hl]
    rfl

/-! ## Forms -/

namespace Text

/-- The text is one line, a parenthesis with this letter first. -/
def Form (letter : Char) (s : String) : Prop := OneLine s ∧ s.toList.take 2 = ['(', letter]

instance (letter : Char) (s : String) : Decidable (Form letter s) :=
  inferInstanceAs (Decidable (_ ∧ _))

variable {letter other : Char}

theorem Form.length_le {s : String} (h : Form letter s) : 2 ≤ s.toList.length := by
  have htake := congrArg List.length h.2
  rw [List.length_take] at htake
  simp only [List.length_cons, List.length_nil] at htake
  omega

theorem Form.head?_eq {s : String} (h : Form letter s) : s.toList.head? = some '(' := by
  have hhead := congrArg List.head? h.2
  rw [List.head?_take] at hhead
  simpa using hhead

theorem Form.add {s t : String} (h : Form letter s) (ht : OneLine t) : Form letter (s ++ t) := by
  refine ⟨.append h.1 ht, ?_⟩
  rw [String.toList_append, List.take_append_of_le_length h.length_le, h.2]

theorem Form.clean {s : String} (h : Form letter s) (level : Nat) :
    (TextLine.atLevel level s).Clean := by
  refine ⟨h.1, ?_⟩
  show s.toList.head? ≠ some ' '
  rw [h.head?_eq]
  decide

/-- What follows the given beginning. -/
def after? : List Char → List Char → Option (List Char)
  | [], cs => some cs
  | _ :: _, [] => none
  | c :: start, d :: cs => if c = d then after? start cs else none

@[simp] theorem after?_append (start cs : List Char) : after? start (start ++ cs) = some cs := by
  induction start with
  | nil => rfl
  | cons c start ih => simp [after?, ih]

theorem eq_append_of_after? {start cs rest : List Char} (h : after? start cs = some rest) :
    cs = start ++ rest := by
  fun_induction after? start cs with
  | case1 cs => simpa using h
  | case2 => cases h
  | case3 c start cs ih => rw [ih h, List.cons_append]
  | case4 => cases h

/-- Of lines without indentation, reads nothing but forms with this letter. -/
def ReadsOnly {α : Type} (letter : Char) (line? : List Char → Option α) : Prop :=
  ∀ cs, cs.head?.any isBlank = false → cs.take 2 ≠ ['(', letter] → line? cs = none

section

variable {α : Type} {line? : List Char → Option α}

/-- A reader that asks for the beginning of a form. -/
theorem ReadsOnly.of_after {start : String} (hstart : Form letter start)
    (h : ∀ cs, cs.head?.any isBlank = false → after? start.toList cs = none → line? cs = none) :
    ReadsOnly letter line? := by
  intro cs hblank hcs
  apply h cs hblank
  cases hafter : after? start.toList cs with
  | none => rfl
  | some rest =>
    refine absurd ?_ hcs
    rw [eq_append_of_after? hafter, List.take_append_of_le_length hstart.length_le, hstart.2]

theorem isBlank_of_isLower {c : Char} (h : c.isLower = true) : isBlank c = false := by
  replace h : (decide ('a'.val ≤ c.val) && decide (c.val ≤ 'z'.val)) = true := h
  simp only [Bool.and_eq_true, decide_eq_true_eq, UInt32.le_iff_toNat_le] at h
  have hlow : 97 ≤ c.toNat := h.1
  have hhigh : c.toNat ≤ 122 := h.2
  simp only [isBlank, Bool.or_eq_false_iff, Bool.and_eq_false_iff, decide_eq_false_iff_not,
    beq_eq_false_iff_ne]
  omega

theorem ReadsOnly.code (h : ReadsOnly letter line?) {c : Char} {rest : List Char}
    (hc : c.isLower = true) : line? (c :: rest) = none := by
  apply h
  · exact isBlank_of_isLower hc
  · intro heq
    obtain rfl : c = '(' := (List.cons.inj heq).1
    cases hc

theorem ReadsOnly.form (h : ReadsOnly letter line?) (hne : other ≠ letter) {s : String}
    (hs : Form other s) : line? s.toList = none := by
  apply h
  · rw [hs.head?_eq]
    rfl
  · intro heq
    rw [hs.2] at heq
    cases heq
    exact hne rfl

/-- Forms with another letter read as nothing. -/
theorem ReadsOnly.forms (h : ReadsOnly letter line?) {l : List (Char × String)}
    (hl : ∀ t ∈ l, Form t.1 t.2) :
    l.flatMap (fun t => (line? t.2.toList).toList) =
      (l.filter (·.1 == letter)).flatMap fun t => (line? t.2.toList).toList := by
  induction l with
  | nil => rfl
  | cons t rest ih =>
    obtain ⟨ht, hrest⟩ := List.forall_mem_cons.mp hl
    rw [List.flatMap_cons, List.filter_cons, ih hrest]
    split
    · rw [List.flatMap_cons]
    · next hne =>
      rw [h.form (fun heq => hne (by simp [heq])) ht, Option.toList_none, List.nil_append]

end

end Text

theorem Line.mem_levelled {n : Nat} {ls : List Line} {x : TextLine} (h : x ∈ levelled n ls) :
    ∃ l ∈ ls, ∃ level, x = .atLevel level l.text := by
  induction ls generalizing n with
  | nil => cases h
  | cons l rest ih =>
    rcases List.mem_cons.mp h with rfl | h
    · exact ⟨l, List.mem_cons_self, _, rfl⟩
    · obtain ⟨l', hl', hx⟩ := ih h
      exact ⟨l', List.mem_cons_of_mem _ hl', hx⟩

/-! ## Names in code -/

/-- Names in scoped lines are declared. -/
theorem LinesScoped.declared {c : NameContext} {opened : List (Option Label)} {lines : List Line}
    (h : LinesScoped c.Declares opened lines) {i : Instr} (hi : .instr i ∈ lines) {n : String}
    (hn : i.name? = some n) : n ∈ c.functions ++ c.globals.map Prod.fst ++ c.locals := by
  have hdeclared : ∀ i, c.Declares i → i.name? = some n →
      n ∈ c.functions ++ c.globals.map Prod.fst ++ c.locals := by
    intro i hi hn
    cases i with
    | localGet name | localSet name | localTee name =>
      cases hn
      exact List.mem_append_right _ hi
    | globalGet name =>
      cases hn
      exact List.mem_append_left _ (List.mem_append_right _ hi)
    | globalSet name =>
      cases hn
      exact List.mem_append_left _ (List.mem_append_right _ (List.mem_map.mpr ⟨_, hi, rfl⟩))
    | call name =>
      cases hn
      exact List.mem_append_left _ (List.mem_append_left _ hi)
    | _ => cases hn
  fun_induction LinesScoped c.Declares opened lines with
  | case1 => cases hi
  | case2 opened label rest ih | case3 opened label rest ih =>
    rcases List.mem_cons.mp hi with heq | hi
    · cases heq
      cases hn
    · exact ih h.2 hi
  | case4 opened j rest _ _ ih =>
    rcases List.mem_cons.mp hi with heq | hi
    · cases heq
      exact hdeclared _ h.1 hn
    · exact ih h.2 hi
  | case5 opened label rest ih => exact ih h (by simpa using hi)
  | case6 opened label rest ih => exact ih h (by simpa using hi)
  | case7 opened result rest ih => exact ih h (by simpa using hi)
  | case8 opened rest ih => exact ih h (by simpa using hi)
  | case9 => exact h.elim
  | case10 _ opened rest ih => exact ih h (by simpa using hi)
  | case11 => exact h.elim

/-! ## Modules -/

namespace Wat

def Import.names (i : Import) : List String :=
  [i.source, i.field, i.name] ++ i.type?.toList

def Global.names (g : Global) : List String := g.name :: g.init.name?.toList

def Func.names (f : Func) : List String := f.name :: f.encoded :: f.variableNames

/-- The names that stand in the text of a module outside of code. -/
def Module.names (w : Module) : List String :=
  [w.memory.source, w.memory.field] ++ w.types.map FuncType.encoded ++
    w.imports.flatMap Import.names ++ w.globals.flatMap Global.names ++ w.funcs.flatMap Func.names

section

variable {c : Char} (hc : c ∈ separators)

include hc

theorem avoids_typeName {encoded : String} (h : Avoids c encoded) : Avoids c (typeName encoded) :=
  .append (.append (.literal hc (by decide)) h) (.literal hc (by decide))

theorem avoids_result (t : Option ValType) : Avoids c (resultText t) := by
  cases t with
  | none => exact .literal hc (by decide)
  | some t => cases t <;> exact .literal hc (by decide)

theorem avoids_globalType (t : ValType) (isMutable : Bool) : Avoids c (globalType t isMutable) := by
  cases t <;> cases isMutable <;> exact .literal hc (by decide)

theorem avoids_params {params : List (String × ValType)} (h : ∀ p ∈ params, Avoids c p.1) :
    Avoids c ("".intercalate (params.map paramText)) := by
  refine avoids_intercalate (.literal hc (by decide)) fun s hs => ?_
  obtain ⟨p, hp, rfl⟩ := List.mem_map.mp hs
  exact Avoids.literal hc (by decide : avoidsAll " (param $" = true) |>.append (h p hp)
    |>.append (.literal hc (by decide)) |>.append ((word_valType _).avoids hc)
    |>.append (.literal hc (by decide))

/-- A global starts with a constant, or with what a name stands for. -/
theorem avoids_instr {i : Instr} (h : ∀ n, i.name? = some n → Avoids c n) : Avoids c i.text := by
  obtain ⟨word, operands, hsplits, -, -, hoperands⟩ := i.text_reads
  exact hsplits.avoids hc (hoperands c hc h)

end

theorem oneLine_export {name : String} (h : OneLine name) (exported : Bool) :
    OneLine (exportText name exported) := by
  cases exported with
  | false => exact (by decide : OneLine "")
  | true =>
    show OneLine (" (export \"" ++ name ++ "\")")
    exact .append (.append (by decide) h) (by decide)

theorem memory_form {m : MemoryImport} (hsource : OneLine m.source) (hfield : OneLine m.field) :
    Form 'i' m.text :=
  (by decide : Form 'i' "(import \"") |>.add hsource |>.add (by decide) |>.add hfield
    |>.add (by decide) |>.add ((word_nat _).avoids (by decide)) |>.add (by decide)

theorem type_form {t : FuncType} (h : OneLine t.encoded) : Form 't' t.text := by
  have hparams : OneLine (if t.params.isEmpty then ""
      else " (param " ++ " ".intercalate (t.params.map ValType.text) ++ ")") := by
    split
    · decide
    · refine .append (.append (by decide) (avoids_intercalate (by decide) fun s hs => ?_))
        (by decide)
      obtain ⟨v, -, rfl⟩ := List.mem_map.mp hs
      exact (word_valType v).avoids (by decide)
  exact (by decide : Form 't' "(type ") |>.add (avoids_typeName (by decide) h) |>.add (by decide)
    |>.add hparams |>.add (avoids_result (by decide) _) |>.add (by decide)

theorem import_form {i : Import} (h : ∀ n ∈ i.names, OneLine n) : Form 'i' i.text := by
  have hsource : OneLine i.source := h _ (by simp [Import.names])
  have hfield : OneLine i.field := h _ (by simp [Import.names])
  have hname : OneLine i.name := h _ (by simp [Import.names])
  refine (by decide : Form 'i' "(import \"") |>.add hsource |>.add (by decide) |>.add hfield
    |>.add (by decide) |>.add ?_ |>.add (by decide)
  split
  · next encoded hitem =>
    have hencoded : OneLine encoded := h _ (by simp [Import.names, Import.type?, hitem])
    exact (by decide : OneLine "(func $") |>.append hname |>.append (by decide)
      |>.append (avoids_typeName (by decide) hencoded) |>.append (by decide)
  · exact (by decide : OneLine "(global $") |>.append hname |>.append (by decide)
      |>.append (avoids_globalType (by decide) _ _) |>.append (by decide)

theorem global_form {g : Global} (h : ∀ n ∈ g.names, OneLine n) : Form 'g' g.text := by
  have hname : OneLine g.name := h _ (by simp [Global.names])
  have hinit : OneLine g.init.text :=
    avoids_instr (by decide) fun n hn => h n (by simp [Global.names, hn])
  exact (by decide : Form 'g' "(global $") |>.add hname |>.add (oneLine_export hname _)
    |>.add (by decide) |>.add (avoids_globalType (by decide) _ _) |>.add (by decide) |>.add hinit
    |>.add (by decide)

theorem local_form {l : String × ValType} (h : OneLine l.1) : Form 'l' (localText l) :=
  (by decide : Form 'l' "(local $") |>.add h |>.add (by decide)
    |>.add ((word_valType _).avoids (by decide)) |>.add (by decide)

theorem header_form {f : Func} (h : ∀ n ∈ f.names, OneLine n) : Form 'f' f.headerText := by
  have hname : OneLine f.name := h _ (by simp [Func.names])
  have hencoded : OneLine f.encoded := h _ (by simp [Func.names])
  have hparams : OneLine ("".intercalate (f.params.map paramText)) := by
    refine avoids_params (by decide) fun p hp => h _ ?_
    simp only [Func.names, Func.variableNames, List.mem_cons, List.mem_append]
    exact .inr (.inr (.inl (List.mem_map_of_mem hp)))
  exact (by decide : Form 'f' "(func $") |>.add hname |>.add (oneLine_export hname _)
    |>.add (by decide) |>.add (avoids_typeName (by decide) hencoded) |>.add (by decide)
    |>.add hparams
    |>.add (avoids_result (by decide) _)

theorem hexDigit_ne_break : ∀ n < 16, Text.hexDigit n ≠ '\n' := by decide

theorem data_form (b : DataBlock) : Form 'd' (dataText b) := by
  have hbytes : '\n' ∉ b.bytes.flatMap fun byte => '\\' :: Text.hexByte byte := by
    intro hmem
    obtain ⟨byte, -, hbyte⟩ := List.mem_flatMap.mp hmem
    have hlt : byte.toNat < 256 := byte.toNat_lt
    rcases List.mem_cons.mp hbyte with heq | hbyte
    · exact absurd heq (by decide)
    rcases List.mem_cons.mp hbyte with heq | hbyte
    · exact hexDigit_ne_break _ (by omega) heq.symm
    · exact hexDigit_ne_break _ (by omega) (List.mem_singleton.mp hbyte).symm
  have hquoted : OneLine (String.ofList
      (b.bytes.flatMap fun byte => '\\' :: Text.hexByte byte)) := by
    unfold OneLine Avoids
    rwa [String.toList_ofList]
  exact (by decide : Form 'd' "(data (offset (i32.const ") |>.add ((word_nat _).avoids (by decide))
    |>.add (by decide) |>.add hquoted |>.add (by decide)

namespace Module

/-- The lines of a module that are forms, apart from those in functions. -/
def formTexts (w : Module) : List (Char × String) :=
  w.declarations ++ w.funcs.map fun f => ('f', f.headerText)

/-- Every line of the module is one line: a form, or code. -/
structure Forms (w : Module) : Prop where
  forms : ∀ t ∈ w.formTexts, Form t.1 t.2
  locals : ∀ f ∈ w.funcs, ∀ l ∈ f.locals, Form 'l' (localText l)
  code : ∀ f ∈ w.funcs, ∀ l ∈ f.body.lines,
    OneLine l.text ∧ ∃ c rest, l.text.toList = c :: rest ∧ c.isLower = true

theorem forms {w : Module}
    (hbodies : ∀ f ∈ w.funcs, LinesScoped (w.context f).Declares [] f.body.lines)
    (hnames : ∀ n ∈ w.names, OneLine n) : w.Forms := by
  simp only [names, List.mem_append, or_imp, forall_and, List.mem_flatMap,
    forall_exists_index, and_imp] at hnames
  obtain ⟨⟨⟨⟨hmemory, htypes⟩, himports⟩, hglobals⟩, hfuncs⟩ := hnames
  -- A name in code is one of those of an import, a global or a function.
  have hcontext : ∀ f ∈ w.funcs, ∀ n ∈ (w.context f).functions ++
      (w.context f).globals.map Prod.fst ++ (w.context f).locals, OneLine n := by
    intro f hf n hn
    simp only [context, functionNames, globalNames, List.map_append, List.mem_append,
      List.mem_map, List.mem_filterMap] at hn
    rcases hn with ((⟨i, hi, hname⟩ | ⟨g, hg, rfl⟩) | (⟨⟨_, _⟩, ⟨i, hi, hname⟩, rfl⟩ |
      ⟨_, ⟨g, hg, rfl⟩, rfl⟩)) | hn
    · refine himports n i hi ?_
      unfold Import.function? at hname
      split at hname
      · cases hname
        simp [Import.names]
      · cases hname
    · exact hfuncs _ g hg (by simp [Func.names])
    · refine himports _ i hi ?_
      unfold Import.global? at hname
      split at hname
      · cases hname
      · cases hname
        simp [Import.names]
    · exact hglobals _ g hg (by simp [Global.names])
    · exact hfuncs _ f hf (by simp [Func.names, hn])
  refine ⟨?_, fun f hf l hl => ?_, fun f hf l hl => ?_⟩
  · intro t ht
    simp only [formTexts, declarations, List.mem_append, List.mem_cons, List.mem_map] at ht
    rcases ht with ((((rfl | ⟨t, ht, rfl⟩) | ⟨i, hi, rfl⟩) | ⟨g, hg, rfl⟩) | ⟨b, -, rfl⟩) |
      ⟨f, hf, rfl⟩
    · exact memory_form (hmemory _ (by simp)) (hmemory _ (by simp))
    · exact type_form (htypes _ (List.mem_map_of_mem ht))
    · exact import_form fun n hn => himports n i hi hn
    · exact global_form fun n hn => hglobals n g hg hn
    · exact data_form b
    · exact header_form fun n hn => hfuncs n f hf hn
  · apply local_form
    apply hfuncs _ f hf
    simp only [Func.names, Func.variableNames, List.mem_cons, List.mem_append]
    exact .inr (.inr (.inr (List.mem_map_of_mem hl)))
  · exact Line.text_code fun i heq n hn =>
      hcontext f hf n ((hbodies f hf).declared (heq ▸ hl) hn)

namespace Forms

variable {w : Module} (h : w.Forms)

include h

theorem clean : ∀ l ∈ w.printed, l.Clean := by
  have hclose (level : Nat) : (TextLine.atLevel level ")").Clean :=
    ⟨show '\n' ∉ ")".toList by decide, show ")".toList.head? ≠ some ' ' by decide⟩
  intro l hl
  simp only [printed, List.cons_append, List.mem_cons, List.mem_append, List.mem_map,
    List.mem_flatMap, List.not_mem_nil, or_false] at hl
  rcases hl with rfl | (⟨_, ⟨t, ht, rfl⟩, rfl⟩ | ⟨f, hf, hl⟩) | rfl
  · exact (show Form 'm' "(module" by decide).clean 0
  · exact (h.forms t (List.mem_append_left _ ht)).clean 1
  · simp only [Func.printed, List.cons_append, List.mem_cons, List.mem_append, List.mem_map,
      List.not_mem_nil, or_false] at hl
    rcases hl with rfl | (⟨_, ⟨l, hl, rfl⟩, rfl⟩ | hl) | rfl
    · exact (h.forms _ (List.mem_append_right _ (List.mem_map_of_mem hf))).clean 1
    · exact (h.locals f hf l hl).clean 2
    -- The first character of a line of code is a letter, so its blanks are all indentation.
    · obtain ⟨l, hmem, level, rfl⟩ := Line.mem_levelled hl
      obtain ⟨hline, c, rest, htext, hc⟩ := h.code f hf l hmem
      refine ⟨hline, ?_⟩
      show l.text.toList.head? ≠ some ' '
      rw [htext]
      rintro ⟨⟩
      cases hc
    · exact hclose 1
  · exact hclose 0

/-- The text of a module reads as its lines. -/
theorem lines_eq : lines w.text.toList = w.printed ++ [⟨0, []⟩] := by
  rw [Module.text_eq, lines_print h.clean]

variable {α : Type} {letter : Char} {line? : List Char → Option α}

/-- What reads only forms with one letter reads nothing else of a module. -/
theorem read_eq (hreads : ReadsOnly letter line?) (hmodule : 'm' ≠ letter) (hlocal : 'l' ≠ letter) :
    readAll line? w.text.toList =
      (w.formTexts.filter (·.1 == letter)).flatMap fun t => (line? t.2.toList).toList := by
  have hempty : line? [] = none := hreads _ rfl (by simp)
  have hclose : line? ")".toList = none := by
    apply hreads
    · decide
    · rw [show ")".toList.take 2 = [')'] by decide]
      nofun
  have hopen : line? "(module".toList = none :=
    hreads.form hmodule (show Form 'm' "(module" by decide)
  -- Of a function, only the header may be read.
  have hfunc : ∀ f ∈ w.funcs, f.printed.flatMap (fun l => (line? l.content).toList) =
      (line? f.headerText.toList).toList := by
    intro f hf
    have hlocals : f.locals.flatMap (fun l => (line? (localText l).toList).toList) = [] := by
      rw [List.flatMap_eq_nil_iff]
      intro l hl
      rw [hreads.form hlocal (h.locals f hf l hl), Option.toList_none]
    have hcode : (Line.levelled 2 f.body.lines).flatMap
        (fun l => (line? l.content).toList) = [] := by
      rw [List.flatMap_eq_nil_iff]
      intro l hl
      obtain ⟨l, hmem, level, rfl⟩ := Line.mem_levelled hl
      obtain ⟨-, c, rest, htext, hc⟩ := h.code f hf l hmem
      show (line? l.text.toList).toList = []
      rw [htext, hreads.code hc, Option.toList_none]
    simp only [Func.printed, List.cons_append, List.flatMap_cons, List.flatMap_append,
      List.flatMap_nil, List.flatMap_map, hcode, TextLine.atLevel, hlocals, hclose,
      Option.toList_none, List.append_nil]
  have hfuncs : (w.funcs.flatMap Func.printed).flatMap (fun l => (line? l.content).toList) =
      w.funcs.flatMap fun f => (line? f.headerText.toList).toList := by
    rw [List.flatMap_assoc]
    exact List.flatMap_congr hfunc
  rw [readAll, h.lines_eq, ← hreads.forms h.forms]
  simp only [printed, formTexts, List.cons_append, List.flatMap_cons, List.flatMap_append,
    List.flatMap_nil, List.flatMap_map, TextLine.atLevel, hopen, hclose, hempty, hfuncs,
    Option.toList_none, List.nil_append, List.append_nil]

theorem read_types (hreads : ReadsOnly 't' line?) :
    readAll line? w.text.toList = w.types.flatMap fun t => (line? t.text.toList).toList := by
  rw [h.read_eq hreads (by decide) (by decide)]
  simp [formTexts, declarations, List.filter_map, List.flatMap_map, Function.comp_def]

/-- The memory is imported like everything else. -/
theorem read_imports (hreads : ReadsOnly 'i' line?) :
    readAll line? w.text.toList = (line? w.memory.text.toList).toList ++
      w.imports.flatMap fun i => (line? i.text.toList).toList := by
  rw [h.read_eq hreads (by decide) (by decide)]
  simp [formTexts, declarations, List.filter_map, List.flatMap_map, Function.comp_def]

theorem read_globals (hreads : ReadsOnly 'g' line?) :
    readAll line? w.text.toList = w.globals.flatMap fun g => (line? g.text.toList).toList := by
  rw [h.read_eq hreads (by decide) (by decide)]
  simp [formTexts, declarations, List.filter_map, List.flatMap_map, Function.comp_def]

theorem read_data (hreads : ReadsOnly 'd' line?) :
    readAll line? w.text.toList = w.data.flatMap fun b => (line? (dataText b).toList).toList := by
  rw [h.read_eq hreads (by decide) (by decide)]
  simp [formTexts, declarations, List.filter_map, List.flatMap_map, Function.comp_def]

theorem read_headers (hreads : ReadsOnly 'f' line?) :
    readAll line? w.text.toList = w.funcs.flatMap fun f => (line? f.headerText.toList).toList := by
  rw [h.read_eq hreads (by decide) (by decide)]
  simp [formTexts, declarations, List.filter_map, List.flatMap_map, Function.comp_def]

end Forms

end Module

end Wat

end WasmBackend
