import WasmBackend.Proofs.Data.Arrays

/-!
# The types that array literals are used at

An array literal is encoded once for every time that the walk comes to it, each time at the element
type that holds then: its annotation, or what its surroundings made known last, or what its elements
say. `Module.elementTypes` lists these types without placing anything, and the block that counts is
encoded at the latest of them (`Module.extract_encoded`).

What is made known about a literal is made known just before the walk comes to it. So a literal that
is used once, by a `let`, is encoded at the type that the `let` gives it: nothing can be left over
from elsewhere. The invariant is `Uses.Fresh`. The blocks of earlier visits are not looked at.
-/

namespace WasmBackend

/-! ## The walk -/

/-- A visit to an array literal, and the element type that it had there. -/
structure ArrayUse where
  literal : ExprId
  elementTy : Ty
  deriving DecidableEq

/-- What a walk has made known about array literals, and which it has come to, the latest first. -/
structure Uses where
  expected : Table ExprId Ty := {}
  seen : List ArrayUse := []
  deriving DecidableEq

abbrev UseM := StateM Uses

namespace UseM

def after (y : UseM Unit) (u : Uses) : Uses := (y u).2

end UseM

namespace Uses

/-- Makes this element type known about literals. -/
def expecting (es : List ExprId) (ty : Ty) (u : Uses) : Uses :=
  { u with expected := es.foldl (fun expected e => expected.set e ty) u.expected }

def log (id : ExprId) (ty : Ty) (u : Uses) : Uses := { u with seen := ⟨id, ty⟩ :: u.seen }

/-- The types that a literal has been used at, the latest first. -/
def typesOf (u : Uses) (id : ExprId) : List Ty :=
  (u.seen.filter fun use => use.literal = id).map ArrayUse.elementTy

/-- The elements are walked through before the use is noted, as they are placed first. -/
def useArray (arena : Arena) (id : ExprId) (elements : List ExprId) (stated : Option Ty)
    (walk : UseM Unit) : UseM Unit := do
  let elementTy := arrayElementType arena stated ((← get).expected.get? id) elements
  elementTy.element?.forM fun inner =>
    modify (expecting (elements.filter (Placement.isArray arena)) inner)
  walk
  modify (log id elementTy)

/-- The visitor that notes the uses of array literals. Nothing is placed, so nothing can fail. -/
def visitor (arena : Arena) : Visitor UseM where
  stmt := fun _ s walk => do
    match s with
    | .letting decl => (decl.ty.bind Ty.element?).forM fun ty => modify (expecting [decl.init] ty)
    | _ => pure ()
    walk
  expr := fun id e walk =>
    match e with
    | .str _ => pure ()
    | .array elements stated => useArray arena id elements stated walk
    | .struct _ _ => pure ()
    | _ => walk
  dangling := fun _ => pure ()

end Uses

/-- Makes known what is passed down to an expression, and visits it. -/
def Uses.useRoot (arena : Arena) (r : Root) : UseM Unit := do
  r.passed.forM fun ty => modify (expecting [r.expr] ty)
  (visitor arena).visitExpr arena r.expr

/-- The element types that an array literal of the module is used at, the latest first. -/
def Module.elementTypes (m : Module) (id : ExprId) : List Ty :=
  (((Uses.visitor m.arena).visitModule m).after {}).typesOf id

/-! ## What a walk leaves behind -/

namespace Uses

variable {arena : Arena} {u u' u'' : Uses} {id : ExprId} {ty : Ty} {es : List ExprId}

theorem typesOf_log (u : Uses) (id : ExprId) (ty : Ty) (other : ExprId) :
    (u.log id ty).typesOf other =
      if id = other then ty :: u.typesOf other else u.typesOf other := by
  unfold typesOf log
  by_cases h : id = other <;> simp [h]

theorem get?_expecting (es : List ExprId) (ty : Ty) (u : Uses) (id : ExprId) :
    (u.expecting es ty).expected.get? id =
      if id ∈ es then some ty else u.expected.get? id := by
  unfold expecting
  dsimp only
  generalize u.expected = expected
  induction es generalizing expected with
  | nil => simp
  | cons e rest ih =>
    rw [List.foldl_cons, ih, Table.get?_set]
    by_cases he : e = id
    · simp [he]
    · simp [he, Ne.symm he]

/-- Uses are only added, and what is known about a literal is new only if the literal was come to
since. -/
structure Settles (arena : Arena) (u u' : Uses) : Prop where
  types : ∀ id, u.typesOf id <:+ u'.typesOf id
  expected : ∀ id, Placement.isArray arena id = true → u'.typesOf id = [] →
    u'.expected.get? id = u.expected.get? id

namespace Settles

theorem refl (u : Uses) : u.Settles arena u := ⟨fun _ => List.suffix_rfl, fun _ _ _ => rfl⟩

theorem trans (h : u.Settles arena u') (h' : u'.Settles arena u'') : u.Settles arena u'' := by
  refine ⟨fun id => (h.types id).trans (h'.types id), fun id harray hnone => ?_⟩
  have hnone' : u'.typesOf id = [] := List.suffix_nil.mp (hnone ▸ h'.types id)
  rw [h'.expected id harray hnone, h.expected id harray hnone']

/-- What is made known about literals does not count, if they are come to afterwards. -/
theorem of_expecting (h : (u.expecting es ty).Settles arena u')
    (hseen : ∀ e ∈ es, Placement.isArray arena e = true → u'.typesOf e ≠ []) :
    u.Settles arena u' := by
  refine ⟨h.types, fun id harray hnone => ?_⟩
  have hout : id ∉ es := fun hmem => hseen id hmem harray hnone
  rw [h.expected id harray hnone, get?_expecting, if_neg hout]

theorem log (h : u.Settles arena u') (id : ExprId) (ty : Ty) :
    u.Settles arena (u'.log id ty) := by
  refine ⟨fun other => ?_, fun other harray hnone => ?_⟩
  · rw [typesOf_log]
    split
    · exact (h.types other).trans (List.suffix_cons _ _)
    · exact h.types other
  · rw [typesOf_log] at hnone
    split at hnone
    · cases hnone
    · exact h.expected other harray hnone

end Settles

/-- Nothing is known about a literal that was not come to. -/
def Fresh (arena : Arena) (u : Uses) : Prop :=
  ∀ id, Placement.isArray arena id = true → u.typesOf id = [] → u.expected.get? id = none

theorem Fresh.settles (h : u.Fresh arena) (hsettles : u.Settles arena u') : u'.Fresh arena := by
  intro id harray hnone
  have hnone' : u.typesOf id = [] := List.suffix_nil.mp (hnone ▸ hsettles.types id)
  rw [hsettles.expected id harray hnone, h id harray hnone']

/-- The literal has been used at this type, and at no other unless it was used more than once. -/
def FirstAt (id : ExprId) (ty : Ty) (u : Uses) : Prop :=
  2 ≤ (u.typesOf id).length ∨ u.typesOf id = [ty]

theorem FirstAt.settles (h : u.FirstAt id ty) (hsettles : u.Settles arena u') :
    u'.FirstAt id ty := by
  obtain ⟨later, hlater⟩ := hsettles.types id
  unfold FirstAt
  rw [← hlater]
  rcases h with hmany | hone
  · exact .inl (by rw [List.length_append]; omega)
  · rw [hone]
    cases later with
    | nil => exact .inr rfl
    | cons first rest => exact .inl (by simp)

end Uses

/-! ## Noting what is placed -/

namespace Placement

/-- The literal has an address, and the block there holds its elements at this type. The type is its
annotation, if it has one. -/
def Encodes (arena : Arena) (p : Placement) (id : ExprId) (ty : Ty) : Prop :=
  ∃ elements stated address bytes align inner,
    arena.expr? id = some (.array elements stated) ∧ (∀ t ∈ stated, ty = t) ∧
    p.literals.get? id = some address ∧ ⟨address, bytes⟩ ∈ p.data.segments ∧
    encodeArray arena inner ty elements = .ok (bytes, align)

/-- The notes tell what the walk has made known, and at which type each literal was encoded last. -/
structure Noted (arena : Arena) (p : Placement) (u : Uses) : Prop where
  expected : p.expected = u.expected
  encoded : ∀ id ty earlier, u.typesOf id = ty :: earlier → p.Encodes arena id ty

variable {arena : Arena} {p p' q : Placement} {u : Uses} {id : ExprId} {ty : Ty}

theorem Encodes.mono (h : p.Encodes arena id ty)
    (hliteral : p'.literals.get? id = p.literals.get? id) (hgrows : p.Grows p') :
    p'.Encodes arena id ty := by
  obtain ⟨elements, stated, address, bytes, align, inner, hid, hty, haddress, hblock, hencode⟩ := h
  exact ⟨elements, stated, address, bytes, align, inner, hid, hty, hliteral.trans haddress,
    hgrows.subset hblock, hencode⟩

/-- Placing something that is no array. -/
theorem Noted.placed (h : p.Noted arena u) (hid : isArray arena id = false) (hgrows : p.Grows p')
    (hexpected : p'.expected = p.expected) {address : Nat}
    (hliterals : p'.literals = p.literals.set id address) : p'.Noted arena u := by
  refine ⟨hexpected.trans h.expected, fun other ty earlier htypes => ?_⟩
  have hencodes := h.encoded other ty earlier htypes
  have hne : id ≠ other := by
    rintro rfl
    obtain ⟨elements, stated, _, _, _, _, harray, -⟩ := hencodes
    rw [isArray_iff.mpr ⟨elements, stated, harray⟩] at hid
    cases hid
  refine hencodes.mono ?_ hgrows
  rw [hliterals, Table.get?_set, if_neg hne]

theorem Noted.expecting (h : p.Noted arena u) (es : List ExprId) (ty : Ty) :
    ({ p with expected := (u.expecting es ty).expected } : Placement).Noted arena
      (u.expecting es ty) :=
  ⟨rfl, h.encoded⟩

theorem forM_expect (es : List ExprId) (ty : Ty) (p : Placement) :
    (es.forM fun e => expect e ty) p =
      .ok ((), { p with
        expected := es.foldl (fun expected e => expected.set e ty) p.expected }) := by
  induction es generalizing p with
  | nil => rfl
  | cons e rest ih => exact ih { p with expected := p.expected.set e ty }

/-- What an array makes known about the literals in it, on both sides. -/
theorem Noted.expectElements (h : p.Noted arena u) {elements : List ExprId} {ty : Ty}
    (hexpect : Placement.expectElements arena elements ty p = .ok ((), q)) :
    ∃ es inner, es ⊆ elements ∧ q.Noted arena (u.expecting es inner) ∧
      UseM.after (ty.element?.forM fun inner =>
        modify (Uses.expecting (elements.filter (isArray arena)) inner)) u =
        u.expecting es inner := by
  unfold Placement.expectElements at hexpect
  cases hinner : ty.element? with
  | none =>
    rw [hinner] at hexpect
    cases hexpect
    exact ⟨[], ty, List.nil_subset _, h, rfl⟩
  | some inner =>
    simp only [hinner, forM_expect] at hexpect
    cases hexpect
    refine ⟨elements.filter (isArray arena), inner, List.filter_sublist.subset, ?_, rfl⟩
    rw [h.expected]
    exact h.expecting _ inner

/-- When the walk on the left succeeds, the one on the right has noted it, and has come to these
literals. -/
def Follows (arena : Arena) (ids : List ExprId) (x : PlaceM Unit) (y : UseM Unit) : Prop :=
  ∀ p u p', p.Noted arena u → x p = .ok ((), p') →
    p'.Noted arena (y.after u) ∧ u.Settles arena (y.after u) ∧
      ∀ id ∈ ids, isArray arena id = true → (y.after u).typesOf id ≠ []

namespace Follows

variable {ids ids' : List ExprId} {x x' : PlaceM Unit} {y y' : UseM Unit} {α : Type}

theorem pure : Follows arena [] (Pure.pure ()) (Pure.pure ()) := by
  intro p u p' h hx
  cases hx
  exact ⟨h, .refl u, by simp⟩

theorem throw (e : CompileError) (ids : List ExprId) (y : UseM Unit) :
    Follows arena ids (MonadExcept.throw e) y := by
  intro p u p' _ hx
  cases hx

theorem mono (h : Follows arena ids x y) (hids : ids' ⊆ ids) : Follows arena ids' x y := by
  intro p u p' hp hx
  obtain ⟨hnoted, hsettles, hseen⟩ := h p u p' hp hx
  exact ⟨hnoted, hsettles, fun id hid => hseen id (hids hid)⟩

theorem andThen (h : Follows arena ids x y) (h' : Follows arena ids' x' y') :
    Follows arena (ids ++ ids') (x >>= fun _ => x') (y >>= fun _ => y') := by
  intro p u p' hp hx
  obtain ⟨⟨⟩, q, hq, hx'⟩ := PlaceM.bind_ok.mp hx
  obtain ⟨hnoted, hsettles, hseen⟩ := h p u q hp hq
  obtain ⟨hnoted', hsettles', hseen'⟩ := h' q _ p' hnoted hx'
  refine ⟨hnoted', hsettles.trans hsettles', fun id hid harray => ?_⟩
  rcases List.mem_append.mp hid with hid | hid
  · intro hnone
    refine hseen id hid harray (List.suffix_nil.mp ?_)
    exact hnone ▸ hsettles'.types id
  · exact hseen' id hid harray

theorem forM {l : List α} {k : α → PlaceM Unit} {k' : α → UseM Unit} {ids : α → List ExprId}
    (h : ∀ a ∈ l, Follows arena (ids a) (k a) (k' a)) :
    Follows arena (l.flatMap ids) (l.forM k) (l.forM k') := by
  induction l with
  | nil => exact pure
  | cons a rest ih =>
    exact (h a List.mem_cons_self).andThen (ih fun b hb => h b (List.mem_cons_of_mem _ hb))

theorem visits {l : List ExprId} {k : ExprId → PlaceM Unit} {k' : ExprId → UseM Unit}
    (h : ∀ id, Follows arena [id] (k id) (k' id)) : Follows arena l (l.forM k) (l.forM k') := by
  have hforM := forM fun id (_ : id ∈ l) => h id
  rwa [List.flatMap_singleton'] at hforM

end Follows

/-! ## Arrays -/

section Arrays

variable {elements : List ExprId} {stated : Option Ty} {walk : PlaceM Unit} {walk' : UseM Unit}

/-- Coming to an array literal adds one use of it, at the type that holds on arrival. -/
theorem Noted.placeArray (h : p.Noted arena u)
    (hid : arena.expr? id = some (.array elements stated))
    (hwalk : Follows arena elements walk walk')
    (hplace : Placement.placeArray arena id elements stated walk p = .ok ((), p')) :
    ∃ v, (Uses.useArray arena id elements stated walk').after u =
        v.log id (arrayElementType arena stated (u.expected.get? id) elements) ∧
      u.Settles arena v ∧ p'.Noted arena ((Uses.useArray arena id elements stated walk').after u)
      := by
  obtain ⟨ty, q, r, bytes, align, hty, hexpect, hwalked, hencode, hplaced⟩ := placeArray_ok hplace
  rw [h.expected] at hty
  obtain ⟨es, inner, hes, hnoted, hexpecting⟩ := h.expectElements hexpect
  -- While the elements are walked through, the array itself is not noted yet.
  obtain ⟨hnoted, hsettles, hseen⟩ := hwalk q _ r hnoted hwalked
  have hafter : (Uses.useArray arena id elements stated walk').after u =
      (walk'.after (u.expecting es inner)).log id ty := by
    rw [← hexpecting, hty]
    rfl
  refine ⟨walk'.after (u.expecting es inner), by rw [hafter, hty],
    hsettles.of_expecting fun e he => hseen e (hes he), ?_⟩
  rw [hafter]
  obtain ⟨address, hblock, hliterals, hexpected⟩ := place_ok hplaced
  refine ⟨hexpected.trans hnoted.expected, fun other ty' earlier htypes => ?_⟩
  rw [Uses.typesOf_log] at htypes
  split at htypes
  · next heq =>
    subst heq
    cases htypes
    refine ⟨elements, stated, address, bytes, align, r.literals, hid, ?_, ?_, hblock, hencode⟩
    · intro t ht
      rw [hty, ht]
      rfl
    · rw [hliterals, Table.get?_set, if_pos rfl]
  · next hne =>
    refine (hnoted.encoded other ty' earlier htypes).mono ?_
      (place_grows id bytes align r () p' hplaced)
    rw [hliterals, Table.get?_set, if_neg hne]

theorem placeArray_follows (hid : arena.expr? id = some (.array elements stated))
    (hwalk : Follows arena elements walk walk') :
    Follows arena [id] (Placement.placeArray arena id elements stated walk)
      (Uses.useArray arena id elements stated walk') := by
  intro p u p' hp hplace
  obtain ⟨v, hafter, hsettles, hnoted⟩ := hp.placeArray hid hwalk hplace
  refine ⟨hnoted, hafter ▸ hsettles.log id _, fun other hother _ => ?_⟩
  rw [List.mem_singleton.mp hother, hafter, Uses.typesOf_log, if_pos rfl]
  exact List.cons_ne_nil _ _

end Arrays

/-! ## Expressions and statements -/

variable {structs : Table String StructLayout}

theorem placeString_follows (hid : isArray arena id = false) (content : String) :
    Follows arena [] (placeString id content) (Pure.pure ()) := by
  intro p u p' hp hx
  have hgrows := placeString_grows id content p () p' hx
  obtain ⟨address, data, -, rfl⟩ := placeString_ok hx
  exact ⟨hp.placed hid hgrows rfl rfl, .refl u, by simp⟩

theorem placeStruct_follows (hid : isArray arena id = false) (name : String)
    (fields : List FieldInit) :
    Follows arena [] (do
      let bytes ← encodeStruct arena structs name fields
      place id bytes 4) (Pure.pure ()) := by
  intro p u p' hp hx
  obtain ⟨bytes, q, hencode, hplace⟩ := PlaceM.bind_ok.mp hx
  obtain ⟨-, rfl⟩ := PlaceM.lift_ok hencode
  obtain ⟨address, -, hliterals, hexpected⟩ := place_ok hplace
  exact ⟨hp.placed hid (place_grows id bytes 4 p () p' hplace) hexpected hliterals, .refl u,
    by simp⟩

/-- Visiting an expression is noted, and if it is an array literal, it has been come to. -/
theorem visitExpr_follows (id : ExprId) : Follows arena [id]
    ((visitor arena structs).visitExpr arena id) ((Uses.visitor arena).visitExpr arena id) := by
  refine descend_both (C := True) (R := fun id => Follows arena [id])
    (fun _ _ _ => .throw _ _ _) ?_ id
  intro id visit visit' hsub
  have hvisit (child : ExprId) : Follows arena [child] (visit child) (visit' child) :=
    hsub child (.inr trivial)
  cases hid : arena.expr? id with
  | none => exact .throw _ _ _
  | some e =>
    have hwalk : Follows arena e.children (e.children.forM visit) (e.children.forM visit') :=
      .visits hvisit
    -- Of anything but an array nothing has to be noted.
    have hplain {x : PlaceM Unit} {y : UseM Unit} (hno : isArray arena id = false)
        (h : Follows arena [] x y) : Follows arena [id] x y := by
      intro p u p' hp hx
      obtain ⟨hnoted, hsettles, -⟩ := h p u p' hp hx
      refine ⟨hnoted, hsettles, fun other hother harray => ?_⟩
      rw [List.mem_singleton.mp hother, hno] at harray
      cases harray
    cases e with
    | array elements stated => exact placeArray_follows hid hwalk
    | str content =>
      have hno : isArray arena id = false := by simp [isArray, hid]
      exact hplain hno (placeString_follows hno content)
    | struct name fields =>
      have hno : isArray arena id = false := by simp [isArray, hid]
      exact hplain hno (placeStruct_follows hno name fields)
    | _ => exact hplain (by simp [isArray, hid]) (hwalk.mono (List.nil_subset _))

/-- The visit to an array literal, on both sides. -/
theorem visitExpr_array (structs : Table String StructLayout) {elements : List ExprId}
    {stated : Option Ty} (hid : arena.expr? id = some (.array elements stated)) :
    ∃ walk walk', Follows arena elements walk walk' ∧
      (visitor arena structs).visitExpr arena id = placeArray arena id elements stated walk ∧
      (Uses.visitor arena).visitExpr arena id =
        Uses.useArray arena id elements stated walk' := by
  refine ⟨_, _, ?_, Visitor.visitExpr_eq _ _ hid, Visitor.visitExpr_eq _ _ hid⟩
  refine .visits fun child => ?_
  by_cases hlt : child < id
  · simpa only [hlt, if_true] using visitExpr_follows child
  · simp only [hlt, if_false]
    exact .throw _ _ _

/-- What is passed down to an expression is made known about it before it is visited. -/
theorem Noted.root (h : p.Noted arena u) {r : Root}
    (hx : visitRoot arena structs r p = .ok ((), p')) :
    ∃ es q inner, es ⊆ [r.expr] ∧ q.Noted arena (u.expecting es inner) ∧
      (visitor arena structs).visitExpr arena r.expr q = .ok ((), p') ∧
      (Uses.useRoot arena r).after u =
        ((Uses.visitor arena).visitExpr arena r.expr).after (u.expecting es inner) ∧
      (u.expecting es inner).expected.get? r.expr = r.passed.or (u.expected.get? r.expr) := by
  obtain ⟨e, passed⟩ := r
  cases passed with
  | none => exact ⟨[], p, .void, List.nil_subset _, h, hx, rfl, rfl⟩
  | some ty =>
    obtain ⟨⟨⟩, q, hexpect, hx⟩ := PlaceM.bind_ok.mp hx
    obtain rfl : q = { p with expected := p.expected.set e ty } := by cases hexpect; rfl
    refine ⟨[e], _, ty, List.Subset.refl _, ?_, hx, rfl, ?_⟩
    · rw [h.expected]
      exact h.expecting [e] ty
    · rw [Uses.get?_expecting, if_pos (List.mem_singleton_self _)]
      rfl

theorem visitRoot_follows (r : Root) :
    Follows arena [] (visitRoot arena structs r) (Uses.useRoot arena r) := by
  intro p u p' hp hx
  obtain ⟨es, q, inner, hes, hq, hvisit, hafter, -⟩ := hp.root hx
  obtain ⟨hnoted, hsettles, hseen⟩ := visitExpr_follows r.expr q _ p' hq hvisit
  rw [hafter]
  exact ⟨hnoted, hsettles.of_expecting fun e he => hseen e (hes he), by simp⟩

/-! ## The use of a `let` -/

/-- When the walk on the left succeeds, the notes of the one on the right have the second property,
if they had the first. -/
def Brings (arena : Arena) (P Q : Uses → Prop) (x : PlaceM Unit) (y : UseM Unit) : Prop :=
  ∀ p u p', p.Noted arena u → x p = .ok ((), p') → P u →
    p'.Noted arena (y.after u) ∧ Q (y.after u)

namespace Brings

variable {P Q S : Uses → Prop} {x x' : PlaceM Unit} {y y' : UseM Unit} {α : Type}

theorem of_follows {ids : List ExprId} (hP : ∀ u u', P u → u.Settles arena u' → P u')
    (h : Follows arena ids x y) : Brings arena P P x y := by
  intro p u p' hp hx hu
  obtain ⟨hnoted, hsettles, -⟩ := h p u p' hp hx
  exact ⟨hnoted, hP u _ hu hsettles⟩

theorem andThen (h : Brings arena P Q x y) (h' : Brings arena Q S x' y') :
    Brings arena P S (x >>= fun _ => x') (y >>= fun _ => y') := by
  intro p u p' hp hx hu
  obtain ⟨⟨⟩, q, hq, hx'⟩ := PlaceM.bind_ok.mp hx
  obtain ⟨hnoted, hmid⟩ := h p u q hp hq hu
  exact h' q _ p' hnoted hx' hmid

/-- What one round of a loop brings about, the rounds after it keep. -/
theorem forM {l : List α} {k : α → PlaceM Unit} {k' : α → UseM Unit} {a : α} (ha : a ∈ l)
    (hfollows : ∀ b, Follows arena [] (k b) (k' b))
    (hP : ∀ u u', P u → u.Settles arena u' → P u') (hQ : ∀ u u', Q u → u.Settles arena u' → Q u')
    (hround : Brings arena P Q (k a) (k' a)) : Brings arena P Q (l.forM k) (l.forM k') := by
  induction l with
  | nil => cases ha
  | cons first rest ih =>
    rcases List.mem_cons.mp ha with rfl | ha
    · exact hround.andThen (of_follows hQ (.forM fun b _ => hfollows b))
    · exact (of_follows hP (hfollows first)).andThen (ih ha)

end Brings

/-- An array that is come to while nothing is known about it is used at the type that its
surroundings say. -/
theorem visitRoot_firstAt {r : Root} {elements : List ExprId} {stated : Option Ty}
    (hid : arena.expr? r.expr = some (.array elements stated)) :
    Brings arena (Uses.Fresh arena)
      (Uses.FirstAt r.expr (arrayElementType arena stated r.passed elements))
      (visitRoot arena structs r) (Uses.useRoot arena r) := by
  intro p u p' hp hx hfresh
  obtain ⟨es, q, inner, -, hq, hvisit, hafter, hexpected⟩ := hp.root hx
  obtain ⟨walk, walk', hwalk, hplace, huse⟩ := visitExpr_array structs hid
  rw [hplace] at hvisit
  obtain ⟨v, hlog, hsettles, hnoted⟩ := hq.placeArray hid hwalk hvisit
  rw [hafter, huse]
  refine ⟨hnoted, ?_⟩
  rw [hlog, hexpected]
  unfold Uses.FirstAt
  rw [Uses.typesOf_log, if_pos rfl]
  cases hbefore : v.typesOf r.expr with
  | cons ty rest => exact .inl (by simp)
  | nil =>
    -- The literal was not come to before, so only its surroundings say something about it.
    have hnone : u.typesOf r.expr = [] := List.suffix_nil.mp (hbefore ▸ hsettles.types r.expr)
    rw [hfresh r.expr (isArray_iff.mpr ⟨_, _, hid⟩) hnone, Option.or_none]
    exact .inr rfl

end Placement

/-! ## Modules -/

theorem Uses.visitModule_eq (m : Module) : (visitor m.arena).visitModule m =
    m.visits.forM ((visitor m.arena).perform m.arena fun e ty => modify (expecting [e] ty)) :=
  Visitor.visitModule_eq (fun _ _ _ => rfl)
    (fun _ s _ hs => by cases s <;> first | rfl | exact absurd rfl (hs _)) m

/-- After extraction, the block of a `let`'s array literal is encoded at the type of its last use.
If the literal is used once, or has an annotation, that is the type that it has in the `let`. -/
theorem Module.extract_encoded {m : Module} {base : Nat} {info : ModuleInfo}
    (h : m.extract base = .ok info) {id : StmtId} (hcontains : m.Contains id) {decl : LetDecl}
    (hid : m.arena.stmt? id = some (.letting decl)) {elements : List ExprId} {stated : Option Ty}
    (hinit : m.arena.expr? decl.init = some (.array elements stated)) :
    ∃ ty earlier address bytes align inner, m.elementTypes decl.init = ty :: earlier ∧
      (earlier = [] ∨ stated.isSome →
        ty = arrayElementType m.arena stated (decl.ty.bind Ty.element?) elements) ∧
      info.literals.get? decl.init = some address ∧ ⟨address, bytes⟩ ∈ info.data.segments ∧
      Placement.encodeArray m.arena inner ty elements = .ok (bytes, align) := by
  obtain ⟨declared, placed, -, hplaced, rfl⟩ := extract_ok h
  obtain ⟨roots, hvisits, hroots, hmem⟩ := Placement.visitModule_roots hplaced
  let walked : Uses := ((Uses.visitor m.arena).visitModule m).after {}
  have hwalked : walked = UseM.after (roots.forM (Uses.useRoot m.arena)) {} := by
    unfold walked
    rw [Uses.visitModule_eq, hvisits]
    exact congrArg (UseM.after · {}) List.forM_map
  have hstart : ({ data := declared.data } : Placement).Noted m.arena {} :=
    ⟨rfl, fun _ _ _ htypes => absurd htypes (by simp [Uses.typesOf])⟩
  have hfresh : ({} : Uses).Fresh m.arena := fun _ _ _ => rfl
  have hroot : (⟨decl.init, decl.ty.bind Ty.element?⟩ : Root) ∈ roots :=
    (hmem _).mpr ⟨id, _, hcontains, hid, List.mem_cons_self, rfl⟩
  obtain ⟨hnoted, hfirst⟩ : placed.Noted m.arena walked ∧ walked.FirstAt decl.init _ := by
    rw [hwalked]
    exact Placement.Brings.forM hroot Placement.visitRoot_follows (fun _ _ => Uses.Fresh.settles)
      (fun _ _ => Uses.FirstAt.settles) (Placement.visitRoot_firstAt hinit) _ {} placed hstart
      hroots hfresh
  -- The literal was used in the `let` at least, and what was used last was stored.
  obtain ⟨ty, earlier, htypes⟩ : ∃ ty earlier, walked.typesOf decl.init = ty :: earlier := by
    refine List.exists_cons_of_ne_nil fun hnone => ?_
    rcases hfirst with hmany | hone
    · simp [hnone] at hmany
    · simp [hnone] at hone
  obtain ⟨_, _, address, bytes, align, inner, hinit', hty, haddress, hblock, hencode⟩ :=
    hnoted.encoded decl.init ty earlier htypes
  cases hinit.symm.trans hinit'
  refine ⟨ty, earlier, address, bytes, align, inner, htypes, ?_, haddress, hblock, hencode⟩
  rintro (rfl | hstated)
  · rcases hfirst with hmany | hone
    · simp [htypes] at hmany
    · rw [htypes] at hone
      exact (List.cons.inj hone).1
  · obtain ⟨t, rfl⟩ := Option.isSome_iff_exists.mp hstated
    exact hty t rfl

end WasmBackend
