import WasmBackend.Proofs.Data.Arrays

/-!
# An image that serves requests

An image is asked for places, blocks, strings and headers, in any order and with any arguments, and
some requests fail. What can be relied on after all that is `DataImage.Consistent`: the cursor stays
between the base and the end of the address space, blocks lie apart below it, and the two caches say
where the strings and their headers are, each content at a place of its own.

The caches are why a request may not only look at the present. An address that was given out once
must be the one that is given out later, so an exchange is judged by the image at the end of the run
(`Exchange.Honoured`). That is possible because nothing that was recorded is ever changed
(`DataImage.Extended`).
-/

namespace WasmBackend

/-- What an image can be asked for: room, a block, the text of a string or the header of one. -/
inductive DataRequest where
  | reserve (size align : Nat)
  | block (bytes : List UInt8) (align : Nat)
  | intern (content : String)
  | header (content : String)
  deriving DecidableEq, Repr

/-- The bytes of a header: the length of the content, and where it is. -/
def headerBytes (content : String) (data : Nat) : List UInt8 :=
  littleEndian 4 content.utf8ByteSize ++ littleEndian 4 data

theorem length_headerBytes (content : String) (data : Nat) :
    (headerBytes content data).length = 8 := by
  simp [headerBytes]

/-! ## Caches -/

namespace Table

variable {t : Table String Nat} {content content' : String} {address address' : Nat}

/-- A new entry leaves the others alone. -/
theorem get?_set_of_free (hfree : t.get? content = none) (address : Nat)
    (h : t.get? content' = some address') :
    (t.set content address).get? content' = some address' := by
  have hne : content ≠ content' := by
    rintro rfl
    rw [hfree] at h
    cases h
  rw [get?_set, if_neg hne, h]

/-- Each content has an address of its own. -/
def OneToOne (t : Table String Nat) : Prop :=
  ∀ content content' address, t.get? content = some address → t.get? content' = some address →
    content = content'

theorem OneToOne.address_eq_iff (h : t.OneToOne) (hc : t.get? content = some address)
    (hc' : t.get? content' = some address') : address = address' ↔ content = content' := by
  constructor
  · rintro rfl
    exact h content content' address hc hc'
  · rintro rfl
    exact Option.some.inj (hc.symm.trans hc')

/-- A new entry with an address that no other has. -/
theorem OneToOne.set (h : t.OneToOne) (hnew : ∀ c a, t.get? c = some a → a ≠ address) :
    (t.set content address).OneToOne := by
  intro c c' a hc hc'
  rw [get?_set] at hc hc'
  split at hc <;> split at hc'
  · next heq heq' => exact heq.symm.trans heq'
  · cases hc
    exact absurd rfl (hnew c' _ hc')
  · cases hc'
    exact absurd rfl (hnew c _ hc)
  · exact h c c' a hc hc'

end Table

namespace DataImage

/-! ## Runs -/

/-- An answer, and the image to go on with. -/
def Answer.settle : Answer → Compiled Nat × DataImage
  | .ok (address, d) => (.ok address, d)
  | .error (e, d) => (.error e, d)

def answer (d : DataImage) : DataRequest → Answer
  | .reserve size align => d.reserve size align
  | .block bytes align => d.addBlock bytes align
  | .intern content => d.intern content
  | .header content => d.header content

/-- The answer to a request, and the image to go on with. -/
def respond (d : DataImage) (request : DataRequest) : Compiled Nat × DataImage :=
  (d.answer request).settle

/-- A request with its answer, and the image on either side of it. -/
structure Exchange where
  before : DataImage
  request : DataRequest
  answer : Compiled Nat
  after : DataImage
  deriving DecidableEq

/-- One request after the other. -/
def exchanges (d : DataImage) : List DataRequest → List Exchange
  | [] => []
  | request :: rest =>
    ⟨d, request, (d.respond request).1, (d.respond request).2⟩ ::
      (d.respond request).2.exchanges rest

/-- The image after all requests. -/
def serve (d : DataImage) : List DataRequest → DataImage
  | [] => d
  | request :: rest => (d.respond request).2.serve rest

/-! ## What is kept -/

/-- What can be relied on at any time. -/
structure Consistent (base : Nat) (d : DataImage) : Prop where
  base_eq : d.base = base
  base_le : base ≤ d.cursor
  cursor_lt : d.cursor < addressSpace
  laid : DataBlock.Laid base d.cursor d.segments
  /-- The string blocks are those of the interned contents. -/
  strings : ∀ b, b ∈ d.strings ↔ ∃ content, d.interned.get? content = some b.address ∧
    b.bytes = content.toUTF8.toList
  interned_lt : ∀ content address, d.interned.get? content = some address → address < d.cursor
  interned_inj : d.interned.OneToOne
  headers : ∀ content address, d.headers.get? content = some address →
    4 ∣ address ∧ ∃ data, d.interned.get? content = some data ∧
      ⟨address, headerBytes content data⟩ ∈ d.blocks
  headers_inj : d.headers.OneToOne

/-- Everything that the first image has recorded, the second has too. -/
structure Extended (d d' : DataImage) : Prop where
  interned : ∀ content address, d.interned.get? content = some address →
    d'.interned.get? content = some address
  headers : ∀ content address, d.headers.get? content = some address →
    d'.headers.get? content = some address
  blocks : d.blocks ⊆ d'.blocks

namespace Extended

theorem refl (d : DataImage) : d.Extended d :=
  ⟨fun _ _ h => h, fun _ _ h => h, List.Subset.refl _⟩

theorem trans {d₁ d₂ d₃ : DataImage} (h : d₁.Extended d₂) (h' : d₂.Extended d₃) :
    d₁.Extended d₃ where
  interned := fun content address hc => h'.interned content address (h.interned content address hc)
  headers := fun content address hc => h'.headers content address (h.headers content address hc)
  blocks := List.Subset.trans h.blocks h'.blocks

end Extended

/-! ## One request -/

section Steps

variable {base : Nat} {d d' : DataImage} {address : Nat}

theorem Consistent.startingAt (hbase : base < addressSpace) :
    (DataImage.startingAt base).Consistent base where
  base_eq := rfl
  base_le := le_rfl
  cursor_lt := hbase
  laid := .nil _ _
  strings := fun _ => ⟨nofun, fun ⟨_, h, _⟩ => nomatch h⟩
  interned_lt := nofun
  interned_inj := nofun
  headers := nofun
  headers_inj := nofun

theorem interned_of_intern {content : String} (hd : d.intern content = .ok (address, d')) :
    d'.interned.get? content = some address := by
  rcases intern_ok hd with ⟨hknown, rfl⟩ | ⟨-, -, rfl⟩
  · exact hknown
  · rw [Table.get?_set, if_pos rfl]

theorem headers_of_intern {content : String} (hd : d.intern content = .ok (address, d')) :
    d'.headers = d.headers := by
  rcases intern_ok hd with ⟨-, rfl⟩ | ⟨-, -, rfl⟩ <;> rfl

theorem headers_of_addBlock {bytes : List UInt8} {align : Nat}
    (hd : d.addBlock bytes align = .ok (address, d')) : d'.headers = d.headers := by
  obtain ⟨-, rfl⟩ := addBlock_ok hd
  rfl

/-- New blocks behind the others. -/
theorem Consistent.laid_of_grows (h : d.Consistent base) (hgrows : d.Grows d') :
    DataBlock.Laid base d'.cursor d'.segments := by
  obtain ⟨hcursor, added, hperm, hadded⟩ := hgrows
  exact (h.laid.append hadded h.base_le hcursor).perm hperm.symm

/-- Moving the cursor up leaves room below it. -/
theorem Consistent.reserve {size align : Nat} (h : d.Consistent base)
    (hd : d.reserve size align = .ok (address, d')) : d'.Consistent base := by
  obtain ⟨htakes, rfl⟩ := reserve_ok hd
  have hbehind := htakes.behind
  have hle : d.cursor ≤ address + size := by omega
  exact { h with
    base_le := h.base_le.trans hle
    cursor_lt := htakes.limit
    laid := h.laid_of_grows ⟨hle, [], by simp [segments], .nil _ _⟩
    interned_lt := fun content a hc => (h.interned_lt content a hc).trans_le hle }

theorem Consistent.addBlock {bytes : List UInt8} {align : Nat} (h : d.Consistent base)
    (hd : d.addBlock bytes align = .ok (address, d')) : d'.Consistent base := by
  have hlaid := h.laid_of_grows (addBlock_grows hd)
  obtain ⟨htakes, rfl⟩ := addBlock_ok hd
  have hbehind := htakes.behind
  have hle : d.cursor ≤ address + bytes.length := by omega
  refine { h with
    base_le := h.base_le.trans hle
    cursor_lt := htakes.limit
    laid := hlaid
    interned_lt := fun content a hc => (h.interned_lt content a hc).trans_le hle
    headers := fun content a hc => ?_ }
  obtain ⟨haligned, data, hdata, hblock⟩ := h.headers content a hc
  exact ⟨haligned, data, hdata, List.mem_append_left _ hblock⟩

/-- A new content gets a place of its own: every other one lies below the cursor. -/
theorem Consistent.intern {content : String} (h : d.Consistent base)
    (hd : d.intern content = .ok (address, d')) : d'.Consistent base := by
  have hlaid := h.laid_of_grows (intern_grows hd)
  rcases intern_ok hd with ⟨-, rfl⟩ | ⟨hfree, htakes, rfl⟩
  · exact h
  have hbehind := htakes.behind
  have hle : d.cursor ≤ address + max content.toUTF8.toList.length 1 := by omega
  have hget (c : String) := d.interned.get?_set content address c
  have hother (c : String) (a : Nat) (hc : d.interned.get? c = some a) : a ≠ address :=
    Nat.ne_of_lt ((h.interned_lt c a hc).trans_le hbehind)
  refine { h with
    base_le := h.base_le.trans hle
    cursor_lt := htakes.limit
    laid := hlaid
    strings := fun b => ?_
    interned_lt := fun c a hc => ?_
    interned_inj := h.interned_inj.set hother
    headers := fun c a hc => ?_ }
  · simp only [List.mem_append, List.mem_singleton, h.strings b]
    constructor
    · rintro (⟨c, hc, hbytes⟩ | rfl)
      · exact ⟨c, Table.get?_set_of_free hfree address hc, hbytes⟩
      · exact ⟨content, by rw [hget, if_pos rfl], rfl⟩
    · rintro ⟨c, hc, hbytes⟩
      rw [hget] at hc
      split at hc
      · next heq =>
        subst heq
        exact .inr (by cases b; simp_all)
      · exact .inl ⟨c, hc, hbytes⟩
  · rw [hget] at hc
    split at hc
    · cases hc
      simp only
      omega
    · exact (h.interned_lt c a hc).trans_le hle
  · obtain ⟨haligned, data, hdata, hblock⟩ := h.headers c a hc
    exact ⟨haligned, data, Table.get?_set_of_free hfree address hdata, hblock⟩

/-- A header is made of what interning and storing give. Its address is behind every other
header. -/
theorem Consistent.header {content : String} (h : d.Consistent base)
    (hd : d.header content = .ok (address, d')) : d'.Consistent base := by
  rcases header_ok hd with ⟨-, rfl⟩ | ⟨hnew, data, stored, headed, hintern, hblock, rfl⟩
  · exact h
  have hstored := h.intern hintern
  have hheaded := hstored.addBlock hblock
  obtain ⟨htakes, rfl⟩ := addBlock_ok hblock
  have hdata : stored.interned.get? content = some data := interned_of_intern hintern
  have hother (c : String) (a : Nat) (hc : stored.headers.get? c = some a) : a ≠ address := by
    obtain ⟨-, data, -, hmem⟩ := hstored.headers c a hc
    have hstop := (hstored.laid.within _ (List.mem_append_right _ hmem)).2
    have hlength := length_headerBytes c data
    have hbehind := htakes.behind
    unfold DataBlock.stop at hstop
    dsimp only at hstop
    omega
  refine { hheaded with
    headers := fun c a hc => ?_
    headers_inj := hstored.headers_inj.set hother }
  rw [Table.get?_set] at hc
  split at hc
  · next heq =>
    cases hc
    subst heq
    exact ⟨htakes.aligned, data, hdata, by simp [headerBytes]⟩
  · exact hheaded.headers c a hc

theorem Extended.reserve {size align : Nat} (hd : d.reserve size align = .ok (address, d')) :
    d.Extended d' := by
  obtain ⟨-, rfl⟩ := reserve_ok hd
  exact ⟨fun _ _ h => h, fun _ _ h => h, List.Subset.refl _⟩

theorem Extended.addBlock {bytes : List UInt8} {align : Nat}
    (hd : d.addBlock bytes align = .ok (address, d')) : d.Extended d' := by
  obtain ⟨-, rfl⟩ := addBlock_ok hd
  exact ⟨fun _ _ h => h, fun _ _ h => h, List.subset_append_left _ _⟩

theorem Extended.intern {content : String} (hd : d.intern content = .ok (address, d')) :
    d.Extended d' := by
  rcases intern_ok hd with ⟨-, rfl⟩ | ⟨hfree, -, rfl⟩
  · exact .refl _
  · exact ⟨fun _ _ h => Table.get?_set_of_free hfree address h, fun _ _ h => h, List.Subset.refl _⟩

theorem Extended.setHeader {content : String} (hfree : d.headers.get? content = none)
    (address : Nat) : d.Extended { d with headers := d.headers.set content address } :=
  ⟨fun _ _ h => h, fun _ _ h => Table.get?_set_of_free hfree address h, List.Subset.refl _⟩

theorem Extended.header {content : String} (hd : d.header content = .ok (address, d')) :
    d.Extended d' := by
  rcases header_ok hd with ⟨-, rfl⟩ | ⟨hnew, data, stored, headed, hintern, hblock, rfl⟩
  · exact .refl _
  · have hfree : headed.headers.get? content = none := by
      rw [headers_of_addBlock hblock, headers_of_intern hintern, hnew]
    exact ((Extended.intern hintern).trans (.addBlock hblock)).trans (.setHeader hfree address)

end Steps

/-! ## What an exchange promises -/

/-- The answer of an exchange is right, and still is at the end. -/
def Exchange.Honoured (final : DataImage) (x : Exchange) : Prop :=
  match x.request, x.answer with
  | .reserve size align, .ok address => x.before.Takes x.after size align address
  | .block bytes align, .ok address =>
    x.before.Takes x.after bytes.length align address ∧ ⟨address, bytes⟩ ∈ final.blocks
  | .intern content, .ok address =>
    final.interned.get? content = some address ∧
      (x.after = x.before ∨
        x.before.Takes x.after (max content.toUTF8.toList.length 1) 1 address)
  | .header content, .ok address =>
    final.headers.get? content = some address ∧
      (x.after = x.before ∨ ∃ data stored, x.before.intern content = .ok (data, stored) ∧
        stored.Takes x.after 8 4 address)
  -- The bytes of the string may have been stored when there was no more room for its header.
  | .header content, .error _ =>
    x.after = x.before ∨ ∃ data, x.before.intern content = .ok (data, x.after)
  | _, .error _ => x.after = x.before

theorem Exchange.Honoured.mono {x : Exchange} {d d' : DataImage} (h : x.Honoured d)
    (hext : d.Extended d') : x.Honoured d' := by
  obtain ⟨before, request, answer, after⟩ := x
  cases answer with
  | error e => cases request <;> exact h
  | ok address =>
    cases request with
    | reserve size align => exact h
    | block bytes align => exact ⟨h.1, hext.blocks h.2⟩
    | intern content => exact ⟨hext.interned _ _ h.1, h.2⟩
    | header content => exact ⟨hext.headers _ _ h.1, h.2⟩

/-- One request, with whatever answer. -/
structure Served (base : Nat) (d : DataImage) (request : DataRequest) (answer : Compiled Nat)
    (d' : DataImage) : Prop where
  consistent : d.Consistent base → d'.Consistent base
  extended : d.Extended d'
  honoured : Exchange.Honoured d' ⟨d, request, answer, d'⟩

theorem respond_served (base : Nat) (d : DataImage) (request : DataRequest) :
    Served base d request (d.respond request).1 (d.respond request).2 := by
  cases request with
  | reserve size align =>
    cases hd : d.reserve size align with
    | error r =>
      simp only [respond, answer, hd, Answer.settle, (reserve_error hd).1]
      exact ⟨id, .refl d, rfl⟩
    | ok r =>
      simp only [respond, answer, hd, Answer.settle]
      exact ⟨fun h => h.reserve hd, .reserve hd, (reserve_ok hd).1⟩
  | block bytes align =>
    cases hd : d.addBlock bytes align with
    | error r =>
      simp only [respond, answer, hd, Answer.settle, (addBlock_error hd).1]
      exact ⟨id, .refl d, rfl⟩
    | ok r =>
      simp only [respond, answer, hd, Answer.settle]
      refine ⟨fun h => h.addBlock hd, .addBlock hd, (addBlock_ok hd).1, ?_⟩
      obtain ⟨-, hblocks⟩ := addBlock_ok hd
      rw [hblocks]
      simp
  | intern content =>
    cases hd : d.intern content with
    | error r =>
      simp only [respond, answer, hd, Answer.settle, (intern_error hd).1]
      exact ⟨id, .refl d, rfl⟩
    | ok r =>
      simp only [respond, answer, hd, Answer.settle]
      refine ⟨fun h => h.intern hd, .intern hd, interned_of_intern hd, ?_⟩
      rcases intern_ok hd with ⟨-, hsame⟩ | ⟨-, htakes, -⟩
      · exact .inl hsame
      · exact .inr htakes
  | header content =>
    cases hd : d.header content with
    | error r =>
      simp only [respond, answer, hd, Answer.settle]
      rcases header_error hd with ⟨hsame, -⟩ | ⟨data, hintern, -⟩
      · rw [hsame]
        exact ⟨id, .refl d, .inl rfl⟩
      · exact ⟨fun h => h.intern hintern, .intern hintern, .inr ⟨data, hintern⟩⟩
    | ok r =>
      simp only [respond, answer, hd, Answer.settle]
      refine ⟨fun h => h.header hd, .header hd, ?_⟩
      rcases header_ok hd with ⟨hknown, hsame⟩ | ⟨-, data, stored, headed, hintern, hblock, hafter⟩
      · exact ⟨hsame ▸ hknown, .inl hsame⟩
      · obtain ⟨htakes, -⟩ := addBlock_ok hblock
        refine ⟨by rw [hafter, Table.get?_set, if_pos rfl], .inr ⟨data, stored, hintern, ?_⟩⟩
        rw [hafter]
        exact { htakes with }

/-! ## Whole runs -/

theorem serve_extended (requests : List DataRequest) (d : DataImage) :
    d.Extended (d.serve requests) := by
  induction requests generalizing d with
  | nil => exact .refl d
  | cons request rest ih => exact (respond_served 0 d request).extended.trans (ih _)

theorem Consistent.serve {base : Nat} (requests : List DataRequest) {d : DataImage}
    (h : d.Consistent base) : (d.serve requests).Consistent base := by
  induction requests generalizing d with
  | nil => exact h
  | cons request rest ih => exact ih ((respond_served base d request).consistent h)

theorem exchanges_honoured (requests : List DataRequest) (d : DataImage) :
    ∀ x ∈ d.exchanges requests, x.Honoured (d.serve requests) := by
  induction requests generalizing d with
  | nil => nofun
  | cons request rest ih =>
    intro x hx
    rcases List.mem_cons.mp hx with rfl | hx
    · -- What was promised then is kept by all the requests that follow.
      exact (respond_served 0 d request).honoured.mono (serve_extended rest _)
    · exact ih _ x hx

/-- For every base and every sequence of requests, failing ones included, the image at the end is
consistent and has kept the promises of every exchange. Equal contents were answered with one
address, different contents with different ones. -/
theorem serve_keeps (base : Nat) (requests : List DataRequest) (hbase : base < addressSpace) :
    ((startingAt base).serve requests).Consistent base ∧
      (∀ x ∈ (startingAt base).exchanges requests,
        x.Honoured ((startingAt base).serve requests)) ∧
      (∀ x ∈ (startingAt base).exchanges requests, ∀ y ∈ (startingAt base).exchanges requests,
        ∀ content content' address address',
          x.answer = .ok address → y.answer = .ok address' →
          (x.request = .intern content → y.request = .intern content' →
            (address = address' ↔ content = content')) ∧
          (x.request = .header content → y.request = .header content' →
            (address = address' ↔ content = content'))) := by
  have hfinal := (Consistent.startingAt hbase).serve requests
  have hhonoured := exchanges_honoured requests (startingAt base)
  refine ⟨hfinal, hhonoured, fun x hx y hy content content' address address' hax hay => ⟨?_, ?_⟩⟩
  all_goals
    intro hrx hry
    have hx := hhonoured x hx
    have hy := hhonoured y hy
    simp only [Exchange.Honoured, hrx, hax, hry, hay] at hx hy
  · exact hfinal.interned_inj.address_eq_iff hx.1 hy.1
  · exact hfinal.headers_inj.address_eq_iff hx.1 hy.1

/-- Sixteen bytes are left. The header of the second string does not fit, but its bytes do, and they
are found again. -/
theorem serve_keeps_at_the_limit :
    ((startingAt 4294967280).exchanges
        [.header "hi", .header "abc", .intern "", .block [1] 1, .reserve 0 1, .intern "abc"]).map
        Exchange.answer =
      [.ok 4294967284, .error (.addressOverflow 8), .error (.addressOverflow 1),
        .error (.addressOverflow 1), .ok 4294967295, .ok 4294967292] ∧
      ((startingAt 4294967280).serve
        [.header "hi", .header "abc", .intern "", .block [1] 1, .reserve 0 1,
          .intern "abc"]).Consistent 4294967280 :=
  ⟨by decide +kernel, (serve_keeps 4294967280 _ (by decide)).1⟩

end DataImage

end WasmBackend
