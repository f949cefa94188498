import WasmBackend.Proofs.Printed.Reading

/-!
# Reading the interface of a module back

What a module has to do with others is in four kinds of lines: the function types it declares, its
imports, and the headers of the globals and functions that it exports. Here they are read
(`Text.interface`), and a printed module reads as what it was printed from
(`Wat.Module.Forms.interface_eq`).

Names stand in these lines twice, quoted and after a dollar sign, and may hold anything that does
not end the line or the quotes, blanks and parentheses too. So the reader finds the end of a name by
the quotes, and wants the other one to be the same. It reads the lines that modules are printed in
and no other way to say the same.
-/

namespace WasmBackend

namespace Wat

/-- What a module has to do with others. -/
structure Interface where
  types : List FuncType
  imports : List Import
  exports : List (String × ImportItem)

/-- The type that is declared for an encoding. -/
def Interface.typeOf? (i : Interface) (encoded : String) : Option FuncType :=
  i.types.find? fun t => t.encoded == encoded

def Global.export? (g : Global) : Option (String × ImportItem) :=
  if g.exported then some (g.name, .global g.ty g.mutable) else none

def Func.export? (f : Func) : Option (String × ImportItem) :=
  if f.exported then some (f.name, .func f.encoded) else none

/-- The interface of a module that is not printed yet. -/
def Module.interface (w : Module) : Interface where
  types := w.types
  imports := w.imports
  exports := w.globals.filterMap Global.export? ++ w.funcs.filterMap Func.export?

end Wat

open Wat

namespace Text

/-! ## Pieces of a line -/

/-- What stands before the first such character, and what stands after it. -/
def upTo? (stop : Char) (cs : List Char) : Option (List Char × List Char) :=
  if stop ∈ cs then some (cs.takeWhile (· != stop), (cs.dropWhile (· != stop)).drop 1) else none

theorem upTo?_append {stop : Char} {cs : List Char} (h : stop ∉ cs) (rest : List Char) :
    upTo? stop (cs ++ stop :: rest) = some (cs, rest) := by
  have hcs : ∀ c ∈ cs, (c != stop) = true := by
    intro c hc
    exact bne_iff_ne.mpr fun heq => h (heq ▸ hc)
  rw [upTo?, if_pos (by simp), List.takeWhile_append_of_pos hcs, List.dropWhile_append_of_pos hcs]
  simp

theorem upTo?_none {stop : Char} {cs : List Char} (h : stop ∉ cs) : upTo? stop cs = none :=
  if_neg h

/-- The encoded signature that a reference to a function type is made from. -/
def reference? (cs : List Char) : Option String := do
  let rest ← after? ['$'] cs
  let stem ← after? "_type".toList.reverse rest.reverse
  return String.ofList stem.reverse

theorem reference?_typeName (encoded : String) :
    reference? (typeName encoded).toList = some encoded := by
  have htext : (typeName encoded).toList = ['$'] ++ (encoded.toList ++ "_type".toList) := by
    simp only [typeName, String.toList_append, List.append_assoc]
    rfl
  rw [reference?, htext, after?_append]
  simp only [Option.bind_eq_bind, Option.bind_some, List.reverse_append, after?_append]
  simp

def valType? (cs : List Char) : Option ValType :=
  [ValType.i32, .f32].find? fun t => t.text.toList == cs

theorem valType?_text (t : ValType) : valType? t.text.toList = some t := by
  cases t <;> rfl

/-- The type of a global, if this follows it. -/
def globalType? (stop cs : List Char) : Option (ValType × Bool) :=
  [(ValType.i32, false), (.i32, true), (.f32, false), (.f32, true)].find? fun t =>
    (after? ((globalType t.1 t.2).toList ++ stop) cs).isSome

theorem globalType?_append (t : ValType) (isMutable : Bool) (c : Char) (stop rest : List Char) :
    globalType? (c :: stop) ((globalType t isMutable).toList ++ (c :: stop ++ rest)) =
      some (t, isMutable) := by
  have hown : (after? ((globalType t isMutable).toList ++ c :: stop)
      ((globalType t isMutable).toList ++ (c :: stop ++ rest))).isSome = true := by
    rw [← List.append_assoc, after?_append]
    rfl
  -- No type is the beginning of another one.
  cases t <;> cases isMutable <;> simp only [globalType?, List.find?_cons, hown] <;> rfl

/-- The parameters of a function type, and what follows them. -/
def params? (cs : List Char) : Option (List ValType × List Char) :=
  (after? " (param ".toList cs).elim (some ([], cs)) fun rest => do
    let words ← upTo? ')' rest
    return (← (words.1.splitOn ' ').mapM valType?, words.2)

/-- The result of a function type, and what follows it. -/
def result? (cs : List Char) : Option (Option ValType × List Char) :=
  (after? " (result ".toList cs).elim (some (none, cs)) fun rest => do
    let word ← upTo? ')' rest
    return (some (← valType? word.1), word.2)

theorem mapM_valType? (ts : List ValType) :
    (ts.map fun t => t.text.toList).mapM valType? = some ts := by
  induction ts with
  | nil => rfl
  | cons t rest ih =>
    rw [List.map_cons, List.mapM_cons, valType?_text, ih]
    rfl

theorem params?_text (ts : List ValType) {rest : List Char}
    (hrest : after? " (param ".toList rest = none) :
    params? ((if ts.isEmpty then ""
        else " (param " ++ " ".intercalate (ts.map ValType.text) ++ ")").toList ++ rest) =
      some (ts, rest) := by
  cases ts with
  | nil =>
    show params? rest = _
    rw [params?, hrest]
    rfl
  | cons t others =>
    have hwords : (" ".intercalate ((t :: others).map ValType.text)).toList =
        [' '].intercalate ((t :: others).map fun t => t.text.toList) := by
      rw [String.toList_intercalate, List.map_map]
      rfl
    -- The types are words, so the first parenthesis is the one that closes the list.
    have hclose : ')' ∉ [' '].intercalate ((t :: others).map fun t => t.text.toList) := by
      rw [← hwords]
      refine avoids_intercalate (by decide) fun s hs => ?_
      obtain ⟨v, -, rfl⟩ := List.mem_map.mp hs
      exact (word_valType v).notMem rfl
    have hblank : ∀ l ∈ (t :: others).map fun t => t.text.toList, ' ' ∉ l := by
      intro l hl
      obtain ⟨v, -, rfl⟩ := List.mem_map.mp hl
      exact (word_valType v).notMem rfl
    rw [List.isEmpty_cons, if_neg Bool.false_ne_true]
    simp only [String.toList_append, List.append_assoc]
    rw [params?, after?_append, hwords, show ")".toList ++ rest = ')' :: rest from rfl]
    simp only [Option.elim_some, Option.bind_eq_bind]
    rw [upTo?_append hclose, Option.bind_some, List.splitOn_intercalate _ hblank (by simp),
      mapM_valType?]
    rfl

theorem result?_text (t : Option ValType) {rest : List Char}
    (hrest : after? " (result ".toList rest = none) :
    result? ((resultText t).toList ++ rest) = some (t, rest) := by
  cases t with
  | none =>
    show result? rest = _
    rw [result?, hrest]
    rfl
  | some t =>
    simp only [resultText, String.toList_append, List.append_assoc]
    rw [result?, after?_append, show ")".toList ++ rest = ')' :: rest from rfl]
    simp only [Option.elim_some, Option.bind_eq_bind]
    rw [upTo?_append ((word_valType t).notMem rfl), Option.bind_some, valType?_text]
    rfl

/-! ## Types -/

/-- Reads the declaration of a type: its name, and what it takes and gives. -/
def typeLine? (line : List Char) : Option FuncType := do
  let name ← upTo? ' ' (← after? "(type ".toList line)
  let params ← params? (← after? "(func".toList name.2)
  let result ← result? params.2
  let encoded ← reference? name.1
  if result.2 = "))".toList then some ⟨encoded, params.1, result.1⟩ else none

theorem typeLine?_text {t : FuncType} (h : OneWord (typeName t.encoded)) :
    typeLine? t.text.toList = some t := by
  have hblank : ' ' ∉ (typeName t.encoded).toList := h.notMem rfl
  have hresult : ∀ r : Option ValType,
      after? " (param ".toList ((resultText r).toList ++ "))".toList) = none := by
    intro r
    cases r with
    | none => rfl
    | some r => cases r <;> rfl
  simp only [FuncType.text, String.toList_append, List.append_assoc]
  rw [typeLine?, after?_append, show " (func".toList = ' ' :: "(func".toList from rfl,
    List.cons_append]
  have hend := result?_text t.result (show after? " (result ".toList "))".toList = none from rfl)
  simp only [Option.bind_eq_bind, Option.bind_some, upTo?_append hblank, after?_append,
    params?_text t.params (hresult t.result), hend, reference?_typeName]
  rfl

theorem readsOnly_typeLine : ReadsOnly 't' typeLine? := by
  apply ReadsOnly.of_after (show Form 't' "(type " by decide)
  intro cs _ hcs
  rw [typeLine?, hcs]
  rfl

/-! ## Imports -/

/-- What is imported under this name. -/
def importItem? (name cs : List Char) : Option ImportItem :=
  (after? (" (func $".toList ++ name ++ " (type ".toList) cs).elim
    (do
      let rest ← after? (" (global $".toList ++ name ++ [' ']) cs
      let ty ← globalType? "))".toList rest
      return .global ty.1 ty.2)
    fun rest => do
      let name ← upTo? ')' rest
      return .func (← reference? name.1)

/-- Reads an import. The name that it is given has to be the one that is imported. -/
def importLine? (line : List Char) : Option Import := do
  let source ← upTo? '"' (← after? "(import \"".toList line)
  let field ← upTo? '"' (← after? " \"".toList source.2)
  let item ← importItem? field.1 field.2
  return ⟨String.ofList source.1, String.ofList field.1, String.ofList field.1, item⟩

/-- The quoted part of an import line. -/
theorem importLine?_append {source field : String} (hsource : Avoids '"' source)
    (hfield : Avoids '"' field) (cs : List Char) :
    importLine? ("(import \"".toList ++ (source.toList ++ ("\" \"".toList ++
        (field.toList ++ '"' :: cs)))) =
      (importItem? field.toList cs).map (⟨source, field, field, ·⟩) := by
  rw [importLine?, after?_append, show "\" \"".toList = '"' :: " \"".toList from rfl,
    List.cons_append]
  simp only [Option.bind_eq_bind, Option.bind_some, upTo?_append hsource, after?_append,
    upTo?_append hfield, String.ofList_toList]
  cases importItem? field.toList cs <;> rfl

theorem importLine?_text {i : Import} (hnames : ∀ n ∈ i.names, Avoids '"' n)
    (hword : ∀ e, i.item = .func e → OneWord (typeName e)) (hfield : i.name = i.field) :
    importLine? i.text.toList = some i := by
  obtain ⟨source, field, name, item⟩ := i
  obtain rfl : name = field := hfield
  have hsource : Avoids '"' source := hnames _ (by simp [Import.names])
  have hname : Avoids '"' name := hnames _ (by simp [Import.names])
  simp only [Import.text, String.toList_append, List.append_assoc]
  rw [show "\" ".toList = '"' :: " ".toList from rfl, List.cons_append,
    importLine?_append hsource hname]
  cases item with
  | func encoded =>
    -- A type name is one word; with a parenthesis in it, it would be read only up to there.
    have hclose : ')' ∉ (typeName encoded).toList := (hword _ rfl).notMem rfl
    have hitem : importItem? name.toList (" ".toList ++ (("(func $" ++ name ++ " (type " ++
        typeName encoded ++ "))").toList ++ ")".toList)) = some (.func encoded) := by
      have htext : " ".toList ++ (("(func $" ++ name ++ " (type " ++ typeName encoded ++
          "))").toList ++ ")".toList) = (" (func $".toList ++ name.toList ++ " (type ".toList) ++
            ((typeName encoded).toList ++ ')' :: "))".toList) := by
        simp only [String.toList_append, List.append_assoc]
        rfl
      rw [htext, importItem?, after?_append]
      simp only [Option.elim_some, Option.bind_eq_bind, upTo?_append hclose, Option.bind_some,
        reference?_typeName]
      rfl
    rw [hitem]
    rfl
  | global ty isMutable =>
    have hitem : importItem? name.toList (" ".toList ++ (("(global $" ++ name ++ " " ++
        globalType ty isMutable ++ ")").toList ++ ")".toList)) = some (.global ty isMutable) := by
      have htext : " ".toList ++ (("(global $" ++ name ++ " " ++ globalType ty isMutable ++
          ")").toList ++ ")".toList) = (" (global $".toList ++ name.toList ++ [' ']) ++
            ((globalType ty isMutable).toList ++ ("))".toList ++ [])) := by
        simp only [String.toList_append, List.append_assoc]
        rfl
      have hglobal := globalType?_append ty isMutable ')' [')'] []
      rw [htext, importItem?, after?_append]
      simp only [Option.bind_eq_bind, Option.bind_some]
      rw [show "))".toList = [')', ')'] from rfl, hglobal]
      rfl
    rw [hitem]
    rfl

/-- The memory is imported as neither. -/
theorem importLine?_memory {m : MemoryImport} (hsource : Avoids '"' m.source)
    (hfield : Avoids '"' m.field) : importLine? m.text.toList = none := by
  simp only [MemoryImport.text, String.toList_append, List.append_assoc]
  rw [show "\" (memory ".toList = '"' :: " (memory ".toList from rfl, List.cons_append,
    importLine?_append hsource hfield]
  rfl

theorem readsOnly_importLine : ReadsOnly 'i' importLine? := by
  apply ReadsOnly.of_after (show Form 'i' "(import \"" by decide)
  intro cs _ hcs
  rw [importLine?, hcs]
  rfl

/-! ## Exports -/

/-- The name under which a declaration is exported, and what follows that. -/
def exported? (start : String) (line : List Char) : Option (List Char × List Char) := do
  let before ← upTo? '"' (← after? start.toList line)
  let name ← upTo? '"' before.2
  let rest ← after? ") ".toList name.2
  if before.1 = name.1 ++ " (export ".toList then some (name.1, rest) else none

theorem exported?_export (start : String) {name : String} (hname : Avoids '"' name)
    (rest : List Char) :
    exported? start (start.toList ++ (name.toList ++ ((exportText name true).toList ++
        ' ' :: rest))) = some (name.toList, rest) := by
  have hbefore : '"' ∉ name.toList ++ " (export ".toList :=
    fun h => (List.mem_append.mp h).elim hname (by decide)
  have htext : name.toList ++ ((exportText name true).toList ++ ' ' :: rest) =
      (name.toList ++ " (export ".toList) ++ '"' ::
        (name.toList ++ '"' :: (") ".toList ++ rest)) := by
    simp only [exportText, if_true, String.toList_append, List.append_assoc]
    rfl
  rw [htext, exported?, after?_append]
  simp only [Option.bind_eq_bind, Option.bind_some, upTo?_append hbefore, upTo?_append hname,
    after?_append, if_true]

/-- Without quotes there is no export. -/
theorem exported?_none {start : String} {line : List Char} (h : '"' ∉ line) :
    exported? start line = none := by
  cases hrest : after? start.toList line with
  | none =>
    rw [exported?, hrest]
    rfl
  | some rest =>
    have hquote : '"' ∉ rest := by
      rw [eq_append_of_after? hrest] at h
      exact fun hmem => h (List.mem_append_right _ hmem)
    rw [exported?, hrest]
    simp only [Option.bind_eq_bind, Option.bind_some, upTo?_none hquote, Option.bind_none]

/-- Reads the header of a global that is exported. -/
def exportedGlobal? (line : List Char) : Option (String × ImportItem) := do
  let e ← exported? "(global $" line
  let ty ← globalType? " (".toList e.2
  return (String.ofList e.1, .global ty.1 ty.2)

/-- Reads the header of a function that is exported, up to its type. -/
def exportedFunc? (line : List Char) : Option (String × ImportItem) := do
  let e ← exported? "(func $" line
  let name ← upTo? ')' (← after? "(type ".toList e.2)
  return (String.ofList e.1, .func (← reference? name.1))

theorem exportedGlobal?_text {g : Global} (hnames : ∀ n ∈ g.names, Avoids '"' n) :
    exportedGlobal? g.text.toList = g.export? := by
  have hname : Avoids '"' g.name := hnames _ (by simp [Global.names])
  cases hexported : g.exported with
  | true =>
    have hglobal := globalType?_append g.ty g.mutable ' ' ['('] (g.init.text.toList ++ "))".toList)
    simp only [Global.text, hexported, String.toList_append, List.append_assoc]
    rw [exportedGlobal?, show " ".toList = [' '] from rfl, List.singleton_append,
      exported?_export "(global $" hname]
    simp only [Option.bind_eq_bind, Option.bind_some]
    rw [show " (".toList = [' ', '('] from rfl, hglobal, Global.export?, if_pos hexported]
    simp
  | false =>
    have hinit : Avoids '"' g.init.text :=
      avoids_instr (by decide) fun n hn => hnames n (by simp [Global.names, hn])
    have hline : Avoids '"' g.text := by
      unfold Global.text
      rw [hexported]
      exact (by decide : Avoids '"' "(global $") |>.append hname
        |>.append (by decide : Avoids '"' "")
        |>.append (by decide) |>.append (avoids_globalType (by decide) _ _) |>.append (by decide)
        |>.append hinit |>.append (by decide)
    rw [exportedGlobal?, exported?_none hline, Global.export?, if_neg (by simp [hexported])]
    rfl

theorem exportedFunc?_text {f : Func} (hnames : ∀ n ∈ f.names, Avoids '"' n)
    (hword : OneWord (typeName f.encoded)) : exportedFunc? f.headerText.toList = f.export? := by
  have hname : Avoids '"' f.name := hnames _ (by simp [Func.names])
  cases hexported : f.exported with
  | true =>
    have hclose : ')' ∉ (typeName f.encoded).toList := hword.notMem rfl
    simp only [Func.headerText, hexported, String.toList_append, List.append_assoc]
    rw [exportedFunc?, show " (type ".toList = ' ' :: "(type ".toList from rfl, List.cons_append,
      exported?_export "(func $" hname]
    simp only [Option.bind_eq_bind, Option.bind_some, after?_append]
    rw [show ")".toList = [')'] from rfl, List.singleton_append, upTo?_append hclose,
      Func.export?, if_pos hexported]
    simp [reference?_typeName]
  | false =>
    -- No quote stands in the line of a function that is not exported, so none is found.
    have hparams : Avoids '"' ("".intercalate (f.params.map paramText)) := by
      refine avoids_params (by decide) fun p hp => hnames _ ?_
      simp only [Func.names, Func.variableNames, List.mem_cons, List.mem_append]
      exact .inr (.inr (.inl (List.mem_map_of_mem hp)))
    have hline : Avoids '"' f.headerText := by
      unfold Func.headerText
      rw [hexported]
      exact (by decide : Avoids '"' "(func $") |>.append hname |>.append (by decide : Avoids '"' "")
        |>.append (by decide) |>.append (hword.avoids (by decide))
        |>.append (by decide) |>.append hparams |>.append (avoids_result (by decide) _)
    rw [exportedFunc?, exported?_none hline, Func.export?, if_neg (by simp [hexported])]
    rfl

theorem readsOnly_exported {α : Type} {letter : Char} {start : String} (hstart : Form letter start)
    (k : List Char × List Char → Option α) :
    ReadsOnly letter fun line => exported? start line >>= k := by
  apply ReadsOnly.of_after hstart
  intro cs _ hcs
  show exported? start cs >>= k = none
  rw [exported?, hcs]
  rfl

theorem readsOnly_exportedGlobal : ReadsOnly 'g' exportedGlobal? :=
  readsOnly_exported (show Form 'g' "(global $" by decide) _

theorem readsOnly_exportedFunc : ReadsOnly 'f' exportedFunc? :=
  readsOnly_exported (show Form 'f' "(func $" by decide) _

/-! ## Modules -/

/-- The interface of a module, read off its text. -/
def interface (text : List Char) : Interface where
  types := readAll typeLine? text
  imports := readAll importLine? text
  exports := readAll exportedGlobal? text ++ readAll exportedFunc? text

end Text

open Text

namespace Wat.Module.Forms

/-- The text of a module reads as its interface, if no name holds a quote either. -/
theorem interface_eq {w : Module} (h : w.Forms) (hscoped : w.WellScoped)
    (hnames : ∀ n ∈ w.names, Avoids '"' n) (hwords : ∀ n ∈ w.typeNames, OneWord n)
    (hfields : ∀ i ∈ w.imports, i.name = i.field) :
    Text.interface w.text.toList = w.interface := by
  simp only [names, List.mem_append, or_imp, forall_and, List.mem_flatMap,
    forall_exists_index, and_imp] at hnames
  obtain ⟨⟨⟨⟨hmemory, -⟩, himports⟩, hglobals⟩, hfuncs⟩ := hnames
  have huses : ∀ e ∈ w.imports.filterMap Import.type? ++ w.funcs.map Func.encoded,
      OneWord (typeName e) := fun e he => hwords _ (hscoped.typeUses _ (List.mem_map_of_mem he))
  have htypes : readAll typeLine? w.text.toList = w.types := by
    rw [h.read_types readsOnly_typeLine]
    refine Eq.trans (List.flatMap_congr fun t ht => ?_) (List.flatMap_singleton' w.types)
    rw [typeLine?_text (hwords _ (List.mem_map_of_mem ht)), Option.toList_some]
  have himports : readAll importLine? w.text.toList = w.imports := by
    rw [h.read_imports readsOnly_importLine,
      importLine?_memory (hmemory _ (by simp)) (hmemory _ (by simp)), Option.toList_none,
      List.nil_append]
    refine Eq.trans (List.flatMap_congr fun i hi => ?_) (List.flatMap_singleton' w.imports)
    have hword : ∀ e, i.item = .func e → OneWord (typeName e) := by
      intro e he
      refine huses e (List.mem_append_left _ (List.mem_filterMap.mpr ⟨i, hi, ?_⟩))
      rw [Import.type?, he]
    rw [importLine?_text (fun n hn => himports n i hi hn) hword (hfields i hi), Option.toList_some]
  have hglobals : readAll exportedGlobal? w.text.toList = w.globals.filterMap Global.export? := by
    rw [h.read_globals readsOnly_exportedGlobal, List.filterMap_eq_flatMap_toList]
    refine List.flatMap_congr fun g hg => ?_
    rw [exportedGlobal?_text fun n hn => hglobals n g hg hn]
  have hfuncs : readAll exportedFunc? w.text.toList = w.funcs.filterMap Func.export? := by
    rw [h.read_headers readsOnly_exportedFunc, List.filterMap_eq_flatMap_toList]
    refine List.flatMap_congr fun f hf => ?_
    rw [exportedFunc?_text (fun n hn => hfuncs n f hf hn)
      (huses _ (List.mem_append_right _ (List.mem_map_of_mem hf)))]
  rw [Text.interface, htypes, himports, hglobals, hfuncs]
  rfl

end Wat.Module.Forms

end WasmBackend
