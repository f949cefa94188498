import WasmBackend.Proofs.Data.Survey

/-!
# Every literal has a place

A walk that succeeds leaves no literal out (`Module.extract_recorded`). It stops at struct literals,
but there is nothing to be found in one: its initialisers are numbers and characters, or it would
not have been encoded. For this it does not matter at which types arrays are laid out, so it holds
whatever stands where.

A string literal is where the header of its content is, so two of them are in one place exactly if
they have one content. That the header is right is what `DataImage.Consistent` says of an image that
started below the end of the address space. A start behind the end does no harm, since nothing can
be placed there (`DataImage.Begun`).

From the place of an array literal paths lead to its elements (`Module.extract_leads`).
-/

namespace WasmBackend

/-! ## Literals -/

/-- What stands in a module stands in an expression of one of its statements. -/
theorem Module.Reaches.exists_root {m : Module} {id : ExprId} (h : m.Reaches id) :
    ∃ sid s e, m.Contains sid ∧ m.arena.stmt? sid = some s ∧ e ∈ s.exprChildren ∧
      m.arena.Within id e := by
  obtain ⟨passed, h⟩ := h
  induction h with
  | root hcontains hid he => exact ⟨_, _, _, hcontains, hid, he, .refl⟩
  | child _ hid hchild ih =>
    obtain ⟨sid, s, e, hcontains, hs, he, hwithin⟩ := ih
    exact ⟨sid, s, e, hcontains, hs, he, Arena.Within.trans (.operand hid hchild .refl) hwithin⟩

/-- The survey that asks for a place only. -/
def Survey.places : Survey where
  typed := False
  told _ := none
  image _ _ _ := True

theorem Survey.places_sound (m : Module) (structs : Table String StructLayout) :
    places.Sound m structs where
  told _ _ h := h.elim
  mono _ _ _ _ _ _ := trivial
  str _ _ _ _ _ _ _ _ := trivial
  struct _ _ _ _ _ _ _ _ _ := trivial
  array _ _ _ _ _ _ _ _ _ _ _ _ _ _ _ _ := trivial

theorem Arena.Within.linked {arena : Arena} {target id : ExprId} (h : arena.Within target id) :
    Survey.places.Linked arena target id := by
  induction h with
  | refl => exact .self
  | operand hid hchild _ ih => exact .child hid hchild (fun h => h.elim) ih

/-- After the walk over a module, every literal that stands in it has a place. -/
theorem Placement.visitModule_covers {m : Module} {structs : Table String StructLayout} {base : Nat}
    {p placed : Placement} (hp : Good m base p)
    (hplaced : (visitor m.arena structs).visitModule m p = .ok ((), placed)) {id : ExprId}
    (hid : m.Reaches id) (hliteral : m.arena.IsLiteral id) : (placed.literals.get? id).isSome := by
  obtain ⟨sid, s, root, hcontains, hs, hroot, hwithin⟩ := hid.exists_root
  have hdone := visitModule_settles (Survey.places_sound m structs) hplaced hp hcontains hs hroot
    fun h => h.elim
  obtain ⟨address, haddress, -⟩ := (hdone.settled id hwithin.linked hliteral).image
  rw [haddress]
  rfl

theorem Module.extract_recorded {m : Module} {base : Nat} {info : ModuleInfo}
    (h : m.extract base = .ok info) {id : ExprId} {e : Expr} (hid : m.Reaches id)
    (he : m.arena.expr? id = some e) (hliteral : e.isDataLiteral = true) :
    (info.literals.get? id).isSome := by
  obtain ⟨declared, placed, hdeclared, hplaced, rfl⟩ := extract_ok h
  exact Placement.visitModule_covers (declarations_good hdeclared) hplaced hid ⟨e, he, hliteral⟩

/-! ## Paths -/

/-- Only the type that an array literal is used at is passed down to it. -/
theorem Arena.Agrees.eq_of_stands {m : Module} {elementOf : ExprId → Ty}
    (hagrees : m.arena.Agrees elementOf) {id : ExprId} {passed : Option Ty} {ty : Ty}
    (h : m.Stands id passed) (hpassed : passed = some ty)
    (harray : Placement.isArray m.arena id = true) : elementOf id = ty := by
  induction h generalizing ty with
  | @root sid s e _ hid he =>
    cases s with
    | letting decl =>
      cases List.mem_singleton.mp he
      exact hagrees.lets sid decl ty hid hpassed harray
    | _ => cases hpassed
  | @child id child e passed _ hid hchild ih =>
    cases e with
    | array elements stated =>
      refine hagrees.nested id elements stated ty hid ?_ child hchild harray
      cases stated with
      | some t => exact hpassed
      | none =>
        cases passed with
        | some t =>
          rw [Option.getD_none, ih rfl (Placement.isArray_iff.mpr ⟨_, _, hid⟩)]
          exact hpassed
        | none =>
          -- Elements of which nothing is known are scalars.
          simp only [Expr.passes, arrayElementType] at hpassed
          split at hpassed <;> cases hpassed
    | _ => cases hpassed

/-- The survey that asks for paths to elements, if arrays are used at these types. -/
def Survey.paths (arena : Arena) (elementOf : ExprId → Ty) : Survey where
  typed := True
  told id := some (elementOf id)
  image blocks id address := ∀ s c path, arena.ElementAt s c (.array (elementOf id)) id path →
    DataBlock.Leads blocks s c (elementOf id) path address

theorem Survey.paths_sound {m : Module} {elementOf : ExprId → Ty}
    (hagrees : m.arena.Agrees elementOf) (structs : Table String StructLayout) :
    (paths m.arena elementOf).Sound m structs where
  told id ty _ harray hstands := congrArg some (hagrees.eq_of_stands hstands rfl harray)
  mono _ _ _ _ hsub h s c path hpath := (h s c path hpath).mono hsub
  str _ id _ _ _ hid _ _ s c path hpath := by
    cases hpath with
    | element hid' => cases hid.symm.trans hid'
  struct _ id _ _ _ _ hid _ _ s c path hpath := by
    cases hpath with
    | element hid' => cases hid.symm.trans hid'
  array blocks literals id elements stated ty bytes align address _ hid hty hencode hblock _ hinner
      s c path hpath := by
    -- A path goes only through literals that state no type.
    obtain ⟨elements', hid'⟩ : ∃ elements', m.arena.expr? id = some (.array elements' none) := by
      cases hpath with
      | element hid' => exact ⟨_, hid'⟩
    cases hid.symm.trans hid'
    obtain rfl : ty = elementOf id := hty trivial
    refine Placement.leads_of_encoded hblock hid hencode (fun e he inner heq harray => ?_) hpath
    have hnested : elementOf e = inner :=
      hagrees.nested id elements none inner hid (by rw [Option.getD_none, heq]; rfl) e he harray
    have hliteral : m.arena.IsLiteral e := by
      obtain ⟨_, _, he'⟩ := Placement.isArray_iff.mp harray
      exact ⟨_, he', rfl⟩
    obtain ⟨target, htarget, hleads⟩ := hinner e he hliteral fun _ _ => by
      rw [heq]
      exact congrArg some hnested
    exact ⟨target, htarget, hnested ▸ hleads⟩

/-- After extraction, the initialiser of a `let` has an address, and paths lead from there to its
elements. -/
theorem Module.extract_leads {m : Module} {base : Nat} {info : ModuleInfo}
    (h : m.extract base = .ok info) {elementOf : ExprId → Ty}
    (hagrees : m.arena.Agrees elementOf) {id : StmtId} (hcontains : m.Contains id)
    {decl : LetDecl} (hid : m.arena.stmt? id = some (.letting decl)) {ty : Ty}
    (hty : decl.ty = some (.array ty)) (harray : Placement.isArray m.arena decl.init = true) :
    ∃ address, info.literals.get? decl.init = some address ∧ ∀ s c path,
      m.arena.ElementAt s c (.array ty) decl.init path →
        DataBlock.Leads info.data.segments s c ty path address := by
  have helement : decl.ty.bind Ty.element? = some ty := by rw [hty]; rfl
  have hown : elementOf decl.init = ty := hagrees.lets id decl ty hid helement harray
  obtain ⟨_, _, hinit⟩ := Placement.isArray_iff.mp harray
  rw [← hown]
  refine extract_settled (Survey.paths_sound hagrees info.structs) h hcontains hid
    List.mem_cons_self (fun _ _ => ?_) .self ⟨_, hinit, rfl⟩
  rw [Stmt.passes, helement]
  exact congrArg some hown

/-! ## Strings -/

/-- The UTF-8 bytes of a text are as many as its length in bytes. -/
theorem length_toUTF8 (content : String) : content.toUTF8.toList.length = content.utf8ByteSize := by
  have hloop (bytes : ByteArray) (i : Nat) (done : List UInt8) (hi : i ≤ bytes.size) :
      (ByteArray.toList.loop bytes i done).length = done.length + (bytes.size - i) := by
    induction i, done using ByteArray.toList.loop.induct bytes with
    | case1 i done hlt ih =>
      rw [ByteArray.toList.loop.eq_1, if_pos hlt, ih hlt, List.length_cons]
      omega
    | case2 i done hge =>
      rw [ByteArray.toList.loop.eq_1, if_neg hge, List.length_reverse]
      omega
  exact (hloop content.toUTF8 0 [] (Nat.zero_le _)).trans (Nat.zero_add _)

namespace Placement

open PlaceM (Ensures)

/-- A string literal is where the header of its content is. -/
structure Headed (arena : Arena) (base : Nat) (p : Placement) : Prop where
  begun : p.data.Begun base
  strings : ∀ id content address, arena.expr? id = some (.str content) →
    p.literals.get? id = some address → p.data.headers.get? content = some address

variable {arena : Arena} {structs : Table String StructLayout} {base : Nat} {id : ExprId}

theorem Ensures.lasting (P : Placement → Prop) :
    PlaceM.Lasting fun x : PlaceM Unit => Ensures P x P where
  pure := by
    intro p a p' h hp
    cases h
    exact hp
  andThen := fun hx hy => hx.bind fun _ => hy
  dangling := fun _ => Ensures.throw _

/-- Storing a literal that is no string. -/
theorem Headed.addBlock {p : Placement} {e : Expr} {bytes : List UInt8} {align address : Nat}
    {data : DataImage} (hp : Headed arena base p) (hid : arena.expr? id = some e)
    (hplain : ∀ content, e ≠ .str content)
    (hblock : p.data.addBlock bytes align = .ok (address, data)) :
    Headed arena base { p with data, literals := p.literals.set id address } := by
  refine ⟨.inr (hp.begun.addBlock hblock), ?_⟩
  intro id' content' address' hid' haddress
  rw [Table.get?_set] at haddress
  split at haddress
  · next heq =>
    subst heq
    exact absurd (Option.some.inj (hid.symm.trans hid')) (hplain content')
  · exact (DataImage.Extended.addBlock hblock).headers content' address'
      (hp.strings id' content' address' hid' haddress)

theorem Step.headed {p p' : Placement} (h : Step arena structs p p') (hp : Headed arena base p) :
    Headed arena base p' := by
  cases h with
  | expect id ty => exact ⟨hp.begun, hp.strings⟩
  | string hid hheader =>
    refine ⟨.inr (hp.begun.header hheader), ?_⟩
    intro id' content' address' hid' haddress
    rw [Table.get?_set] at haddress
    split at haddress
    · next heq =>
      subst heq
      cases hid.symm.trans hid'
      cases haddress
      exact DataImage.headers_of_header hheader
    · exact (DataImage.Extended.header hheader).headers content' address'
        (hp.strings id' content' address' hid' haddress)
  | array hid _ hblock => exact hp.addBlock hid (by simp) hblock
  | struct hid _ hblock => exact hp.addBlock hid (by simp) hblock

theorem visitModule_headed (m : Module) :
    Ensures (Headed m.arena base) ((visitor m.arena structs).visitModule m)
      (Headed m.arena base) :=
  visitModule_along (Ensures.lasting (Headed m.arena base)) fun _ _ => Step.headed

end Placement

namespace Module

variable {m : Module} {base : Nat} {info : ModuleInfo}

theorem extract_headed (h : m.extract base = .ok info) : info.data.Begun base ∧
    ∀ id content address, m.arena.expr? id = some (.str content) →
      info.literals.get? id = some address → info.data.headers.get? content = some address := by
  obtain ⟨declared, placed, hdeclared, hplaced, rfl⟩ := extract_ok h
  have hstart : Placement.Headed m.arena base { data := declared.data } := by
    rw [declarations_data hdeclared]
    exact ⟨.inl rfl, fun _ _ _ _ h => nomatch h⟩
  obtain ⟨hbegun, hstrings⟩ := Placement.visitModule_headed m _ _ _ hplaced hstart
  exact ⟨hbegun, hstrings⟩

/-- An image with a string literal in it is consistent. -/
theorem extract_consistent (h : m.extract base = .ok info) {id : ExprId} {content : String}
    {address : Nat} (hid : m.arena.expr? id = some (.str content))
    (haddress : info.literals.get? id = some address) : info.data.Consistent base := by
  obtain ⟨hbegun, hstrings⟩ := extract_headed h
  have hheader := hstrings id content address hid haddress
  rcases hbegun with hempty | hconsistent
  · rw [hempty] at hheader
    cases hheader
  · exact hconsistent

/-- Where a string literal is, there is a header, and what it says is true. -/
theorem extract_string (h : m.extract base = .ok info) {id : ExprId} {content : String}
    {address : Nat} (hid : m.arena.expr? id = some (.str content))
    (haddress : info.literals.get? id = some address) :
    ∃ data, ⟨address, headerBytes content data⟩ ∈ info.data.blocks ∧
      ⟨data, content.toUTF8.toList⟩ ∈ info.data.strings ∧
      content.utf8ByteSize < addressSpace ∧ data < addressSpace := by
  have hconsistent := extract_consistent h hid haddress
  have hheader := (extract_headed h).2 id content address hid haddress
  obtain ⟨-, data, hdata, hblock⟩ := hconsistent.headers content address hheader
  have hstring : ⟨data, content.toUTF8.toList⟩ ∈ info.data.strings :=
    (hconsistent.strings _).mpr ⟨content, hdata, rfl⟩
  have hlimit := hconsistent.laid.limit _ (List.mem_append_left _ hstring)
  have hlt := (hconsistent.interned_lt content data hdata).trans hconsistent.cursor_lt
  refine ⟨data, hblock, hstring, ?_, hlt⟩
  rw [DataBlock.stop, length_toUTF8] at hlimit
  omega

end Module

/-! ## Globals -/

/-- The initialiser of a global that lives in memory has a place. -/
theorem Module.globals_placed {m : Module} {base : Nat} {declared : ModuleInfo} {placed : Placement}
    (hdeclared : m.declarations base = .ok declared)
    (hplaced : (Placement.visitor m.arena declared.structs).visitModule m
      { data := declared.data } =
      .ok ((), placed))
    {entry : String × GlobalEntry} (hentry : entry ∈ declared.globals.entries)
    (hmemory : entry.2.storage.isMemory = true) :
    ∃ address, placed.literals.get? entry.2.init = some address := by
  obtain ⟨decl, hdecl, hadds⟩ :=
    exists_of_forall₂_right (declarations_records hdeclared).globals hentry
  obtain ⟨storage, hshape, hstorage⟩ := hadds.shape
  have hdata := (globalShape_isMemory hshape).symm.trans (hstorage.trans hmemory)
  obtain ⟨e, he, hliteral⟩ := (Option.any_eq_true _ _).mp hdata
  obtain ⟨sid, hitem, hstmt⟩ := exists_item_of_letDecl hdecl
  have hreaches := (Contains.item hitem).reaches hstmt List.mem_cons_self
  rw [← hadds.init] at he hreaches
  exact Option.isSome_iff_exists.mp (Placement.visitModule_covers (declarations_good hdeclared)
    hplaced hreaches ⟨e, he, hliteral⟩)

/-- A global that lives in memory is where its initialiser is. -/
theorem Module.extract_memoryGlobal {m : Module} {base : Nat} {info : ModuleInfo}
    (h : m.extract base = .ok info) {name : String} {g : GlobalEntry} {address : Nat}
    (hg : info.globals.get? name = some g) (hstorage : g.storage = .memory address) :
    info.literals.get? g.init = some address := by
  obtain ⟨declared, placed, hdeclared, hplaced, rfl⟩ := extract_ok h
  rw [ModuleInfo.placeGlobals_eq, Table.get?_map] at hg
  obtain ⟨before, hbefore, rfl⟩ := Option.map_eq_some_iff.mp hg
  obtain ⟨storage, hbeforeStorage⟩ : ∃ old, before.storage = .memory old := by
    obtain ⟨place, heq, hmemory⟩ := ModuleInfo.placed_cases
      { declared with data := placed.data, literals := placed.literals } before
    rw [heq] at hstorage
    cases hold : before.storage with
    | memory old => exact ⟨old, rfl⟩
    | register =>
      rw [show place = .memory address from hstorage, hold] at hmemory
      cases hmemory
  obtain ⟨place, hplace⟩ := globals_placed hdeclared hplaced (Table.mem_of_get? hbefore)
    (by rw [hbeforeStorage]; rfl)
  simp only [ModuleInfo.placed, hbeforeStorage, hplace] at hstorage ⊢
  cases hstorage
  exact hplace

end WasmBackend
