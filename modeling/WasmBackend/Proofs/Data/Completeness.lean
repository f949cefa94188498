import WasmBackend.Proofs.Data.Recorded
import WasmBackend.Proofs.Traversal.Failures

/-!
# Placing literals is complete

What code relies on after extraction: every literal that it can come to has a place, whatever way it
comes there, and the places are the right ones. Whether two literals share a place is left to
`Data.Coincidence`.
-/

namespace WasmBackend

namespace Module

variable {m : Module} {base : Nat} {info : ModuleInfo}

/-- What stands in a module is all that its code can come to. Linking does not matter. -/
theorem extract_supplied (h : m.extract base = .ok info) (imports : Table String ImportEntry) :
    ModuleInfo.Supplied { info with imports } m.arena m.Contains m.Reaches where
  scope _ := {
    child := fun _ _ _ hid he hchild => hid.child he hchild
    literal := fun _ _ hid he hliteral => extract_recorded h hid he hliteral }
  stmt _ _ _ hid hs hchild := hid.child hs hchild
  leaf _ _ _ hid hs he := hid.reaches hs he

theorem contains_function (h : m.extract base = .ok info) {name : String} {entry : FunctionEntry}
    (hentry : (name, entry) ∈ info.functions.entries) : m.Contains entry.decl := by
  rw [(extract_records h).functions] at hentry
  obtain ⟨⟨id, decl⟩, hdecl, heq⟩ := List.mem_map.mp hentry
  cases heq
  exact .item (item_of_functionDecl hdecl).1

/-- String literals are in one place exactly if they have one content. -/
theorem extract_string_eq_iff (h : m.extract base = .ok info) {id id' : ExprId}
    {content content' : String} {address address' : Nat}
    (hid : m.arena.expr? id = some (.str content))
    (hid' : m.arena.expr? id' = some (.str content'))
    (haddress : info.literals.get? id = some address)
    (haddress' : info.literals.get? id' = some address') :
    address = address' ↔ content = content' := by
  obtain ⟨-, hstrings⟩ := extract_headed h
  exact (extract_consistent h hid haddress).headers_inj.address_eq_iff
    (hstrings id content address hid haddress) (hstrings id' content' address' hid' haddress')

end Module

/-- Every string, array and struct literal that stands in an extracted module has a place, and no
function of the module fails to be lowered for want of one, however its imports are linked. A global
in memory is where its initialiser is. A string literal is a header: the number of its bytes, and
the address of a block with these bytes; and two of them are in one place exactly if they have the
same content. -/
theorem literals_all_placed {m : Module} {base : Nat} {info : ModuleInfo}
    (h : m.extract base = .ok info) :
    (∀ id e, m.Reaches id → m.arena.expr? id = some e → e.isDataLiteral = true →
      ∃ address, info.literals.get? id = some address) ∧
    (∀ imports name entry state err state', (name, entry) ∈ info.functions.entries →
      Lower.lowerFunction { info with imports } m.arena name entry state = .error err state' →
      ∀ reason, err ≠ .unsupportedLiteral reason) ∧
    (∀ name g address, info.globals.get? name = some g → g.storage = .memory address →
      info.literals.get? g.init = some address) ∧
    (∀ id content address, m.arena.expr? id = some (.str content) →
      info.literals.get? id = some address →
      ∃ data, ⟨address, littleEndian 4 content.utf8ByteSize ++ littleEndian 4 data⟩ ∈
          info.data.blocks ∧
        ⟨data, content.toUTF8.toList⟩ ∈ info.data.strings ∧
        content.utf8ByteSize < addressSpace ∧ data < addressSpace) ∧
    ∀ id id' content content', m.Reaches id → m.Reaches id' →
      m.arena.expr? id = some (.str content) → m.arena.expr? id' = some (.str content') →
      (info.literals.get? id = info.literals.get? id' ↔ content = content') := by
  have hplaced (id : ExprId) (e : Expr) (hid : m.Reaches id) (he : m.arena.expr? id = some e)
      (hliteral : e.isDataLiteral = true) : ∃ address, info.literals.get? id = some address :=
    Option.isSome_iff_exists.mp (Module.extract_recorded h hid he hliteral)
  refine ⟨hplaced, ?_, ?_, ?_, ?_⟩
  · intro imports name entry state err state' hentry hlower reason heq
    have hcode := Lower.lowerFunction_failsInCode (Module.extract_supplied h imports)
      (Module.contains_function h hentry) state err state' hlower
    rw [heq] at hcode
    cases hcode
  · intro name g address hg hstorage
    exact Module.extract_memoryGlobal h hg hstorage
  · intro id content address hid haddress
    exact Module.extract_string h hid haddress
  · intro id id' content content' hreach hreach' hid hid'
    obtain ⟨address, haddress⟩ := hplaced id _ hreach hid rfl
    obtain ⟨address', haddress'⟩ := hplaced id' _ hreach' hid' rfl
    rw [haddress, haddress', Option.some.injEq]
    exact Module.extract_string_eq_iff h hid hid' haddress haddress'

/-- A global with two string literals in an array, and a local with a third. -/
def menu : Module where
  name := "menu"
  items := [0, 3]
  arena := {
    exprs := #[.str "tea", .str "tea", .str "", .array [0, 2] none]
    stmts := #[
      .letting ⟨"dishes", none, 3, false⟩,
      .letting ⟨"favourite", none, 1, false⟩,
      .block [1],
      .function ⟨"order", [], .void, 2, false⟩] }

namespace menu

def info : ModuleInfo where
  name := "menu"
  functions := ⟨[("order", ⟨⟨[], .void⟩, false, 3⟩)]⟩
  globals := ⟨[("dishes", ⟨.array .i32, .memory 44, false, 3⟩)]⟩
  data := {
    base := 18
    cursor := 52
    interned := ⟨[("tea", 18), ("", 32)]⟩
    headers := ⟨[("tea", 24), ("", 36)]⟩
    strings := [⟨18, [116, 101, 97]⟩, ⟨32, []⟩]
    blocks := [⟨24, [3, 0, 0, 0, 18, 0, 0, 0]⟩, ⟨36, [0, 0, 0, 0, 32, 0, 0, 0]⟩,
      ⟨44, [24, 0, 0, 0, 36, 0, 0, 0]⟩] }
  literals := ⟨[(0, 24), (2, 36), (3, 44), (1, 24)]⟩

theorem extract_eq : menu.extract 18 = .ok info := by decide +kernel

theorem reaches_element {id : ExprId} (hid : id ∈ [0, 2]) : menu.Reaches id := by
  have hlet : menu.arena.stmt? 0 = some (.letting ⟨"dishes", none, 3, false⟩) := rfl
  have hitem : menu.Contains 0 := .item (by decide)
  have harray : menu.arena.expr? 3 = some (.array [0, 2] none) := rfl
  exact (hitem.reaches hlet (by decide)).child harray hid

theorem reaches_local : menu.Reaches 1 := by
  have hfunction : menu.arena.stmt? 3 = some (.function ⟨"order", [], .void, 2, false⟩) := rfl
  have hblock : menu.arena.stmt? 2 = some (.block [1]) := rfl
  have hlet : menu.arena.stmt? 1 = some (.letting ⟨"favourite", none, 1, false⟩) := rfl
  have hitem : menu.Contains 3 := .item (by decide)
  have hbody : menu.Contains 2 := hitem.child hfunction (by decide)
  exact (hbody.child hblock (by decide)).reaches hlet (by decide)

end menu

/-- The two texts that are equal share a header, and the empty one has its own. -/
theorem menu_shares_headers : menu.extract 18 = .ok menu.info ∧
    (menu.info.literals.get? 0 = menu.info.literals.get? 1 ↔ "tea" = "tea") ∧
    (menu.info.literals.get? 0 = menu.info.literals.get? 2 ↔ "tea" = "") ∧
    menu.info.literals.get? 3 = some 44 := by
  obtain ⟨-, -, hglobals, -, hstrings⟩ := literals_all_placed menu.extract_eq
  refine ⟨menu.extract_eq, ?_, ?_, ?_⟩
  · exact hstrings 0 1 "tea" "tea" (menu.reaches_element (by decide)) menu.reaches_local rfl rfl
  · exact hstrings 0 2 "tea" "" (menu.reaches_element (by decide))
      (menu.reaches_element (by decide)) rfl rfl
  · exact hglobals "dishes" _ 44 rfl rfl

end WasmBackend
