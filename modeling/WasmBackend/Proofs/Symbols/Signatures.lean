import WasmBackend.Proofs.Modules.Parts

/-!
# The encoding of signatures

Encoding and decoding are written apart, and neither is the other's inverse: a boolean is encoded as
an integer, and a void parameter is encoded although no decoding accepts one. What decoding accepts
are the words of the grammar `(i|f)* _ (i|f|v)`, each of which spells one list of lanes.
-/

namespace WasmBackend

namespace Lane

theorem letter_cases (lane : Lane) :
    lane.letter = 'i' ∨ lane.letter = 'f' ∨ lane.letter = 'v' := by
  cases lane with
  | int => exact .inl rfl
  | bool => exact .inl rfl
  | float => exact .inr (.inl rfl)
  | void => exact .inr (.inr rfl)

theorem letter_eq_v {lane : Lane} : lane.letter = 'v' ↔ lane = .void := by
  cases lane <;> simp [letter]

/-- Every letter is that of a lane. -/
theorem exists_letter {c : Char} (h : c = 'i' ∨ c = 'f' ∨ c = 'v') :
    ∃ lane : Lane, lane.letter = c := by
  rcases h with rfl | rfl | rfl
  · exact ⟨.int, rfl⟩
  · exact ⟨.float, rfl⟩
  · exact ⟨.void, rfl⟩

end Lane

namespace Signature

/-! ## What decoding accepts -/

theorem paramLane?_eq_some {c : Char} {lane : Lane} (h : paramLane? c = some lane) :
    c = lane.letter ∧ lane.plain = lane ∧ lane ≠ .void := by
  unfold paramLane? at h
  split at h
  · cases h
    exact ⟨rfl, rfl, Lane.noConfusion⟩
  · cases h
    exact ⟨rfl, rfl, Lane.noConfusion⟩
  · cases h

theorem resultLane?_eq_some {cs : List Char} {lane : Lane} (h : resultLane? cs = some lane) :
    cs = [lane.letter] ∧ lane.plain = lane := by
  unfold resultLane? at h
  split at h
  · cases h
    exact ⟨rfl, rfl⟩
  · cases h
    exact ⟨rfl, rfl⟩
  · cases h
    exact ⟨rfl, rfl⟩
  · cases h

theorem mapM_paramLane?_eq_some {cs : List Char} {lanes : List Lane}
    (h : cs.mapM paramLane? = some lanes) :
    cs = lanes.map Lane.letter ∧ lanes.map Lane.plain = lanes ∧ ∀ lane ∈ lanes, lane ≠ .void := by
  induction cs generalizing lanes with
  | nil =>
    cases h
    exact ⟨rfl, rfl, by simp⟩
  | cons c cs ih =>
    rw [List.mapM_cons] at h
    obtain ⟨lane, hlane, h⟩ := Option.bind_eq_some_iff.mp h
    obtain ⟨rest, hrest, h⟩ := Option.bind_eq_some_iff.mp h
    cases h
    obtain ⟨rfl, hplain, hvoid⟩ := paramLane?_eq_some hlane
    obtain ⟨rfl, hplains, hvoids⟩ := ih hrest
    refine ⟨rfl, ?_, List.forall_mem_cons.mpr ⟨hvoid, hvoids⟩⟩
    rw [List.map_cons, hplain, hplains]

theorem split_underscore {cs rest : List Char} {c : Char}
    (h : cs.dropWhile (· != '_') = c :: rest) :
    cs = cs.takeWhile (· != '_') ++ '_' :: rest := by
  have hstop : c = '_' := by
    have hhead := List.head?_dropWhile_not (· != '_') cs
    rw [h] at hhead
    simpa using hhead
  subst hstop
  rw [← h, List.takeWhile_append_dropWhile]

/-- What is decoded encodes to the text it came from, and is plain: no letter stands for a boolean,
and that of void only for a result. -/
theorem decode_ok {text : String} {params : List Lane} {result : Lane}
    (h : decode text = .ok (params, result)) :
    encodeLanes params result = text ∧ params.map Lane.plain = params ∧
      (∀ lane ∈ params, lane ≠ .void) ∧ result.plain = result := by
  simp only [decode] at h
  split at h
  case h_2 => cases h
  case h_1 lanes hlanes =>
    cases h
    split at hlanes
    case h_1 => cases hlanes
    case h_2 c rest hdrop =>
      obtain ⟨ps, hps, hlanes⟩ := Option.bind_eq_some_iff.mp hlanes
      obtain ⟨r, hr, hlanes⟩ := Option.bind_eq_some_iff.mp hlanes
      cases hlanes
      obtain ⟨hletters, hplains, hvoids⟩ := mapM_paramLane?_eq_some hps
      obtain ⟨rfl, hplain⟩ := resultLane?_eq_some hr
      refine ⟨?_, hplains, hvoids, hplain⟩
      rw [encodeLanes, ← hletters, ← split_underscore hdrop, String.ofList_toList]

theorem decode_cases (text : String) :
    (∃ lanes, decode text = .ok lanes) ∨ decode text = .error (.malformedSignature text) := by
  simp only [decode]
  split
  · exact .inl ⟨_, rfl⟩
  · exact .inr rfl

/-- The grammar of encodings: parameter letters, an underscore, a result letter. -/
def Spelled (text : String) : Prop :=
  ∃ params result, text.toList = params ++ ['_', result] ∧
    (∀ c ∈ params, c = 'i' ∨ c = 'f') ∧ (result = 'i' ∨ result = 'f' ∨ result = 'v')

theorem spelled_encodeLanes {params : List Lane} (result : Lane)
    (h : ∀ lane ∈ params, lane ≠ .void) : Spelled (encodeLanes params result) := by
  refine ⟨params.map Lane.letter, result.letter, String.toList_ofList, ?_, result.letter_cases⟩
  intro c hc
  obtain ⟨lane, hlane, rfl⟩ := List.mem_map.mp hc
  rcases lane.letter_cases with hi | hf | hv
  · exact .inl hi
  · exact .inr hf
  · exact absurd (Lane.letter_eq_v.mp hv) (h lane hlane)

theorem exists_letters {cs : List Char} (h : ∀ c ∈ cs, c = 'i' ∨ c = 'f') :
    ∃ lanes : List Lane, lanes.map Lane.letter = cs ∧ ∀ lane ∈ lanes, lane ≠ .void := by
  induction cs with
  | nil => exact ⟨[], rfl, by simp⟩
  | cons c cs ih =>
    obtain ⟨hc, hcs⟩ := List.forall_mem_cons.mp h
    obtain ⟨lane, rfl⟩ := Lane.exists_letter (hc.imp_right Or.inl)
    obtain ⟨lanes, rfl, hvoids⟩ := ih hcs
    refine ⟨lane :: lanes, rfl, List.forall_mem_cons.mpr ⟨?_, hvoids⟩⟩
    intro hvoid
    rw [hvoid] at hc
    rcases hc with hc | hc <;> cases hc

/-- A word of the grammar is an encoding. -/
theorem Spelled.exists_lanes {text : String} (h : Spelled text) :
    ∃ params result, encodeLanes params result = text ∧ ∀ lane ∈ params, lane ≠ .void := by
  obtain ⟨ps, r, htext, hps, hr⟩ := h
  obtain ⟨params, rfl, hvoids⟩ := exists_letters hps
  obtain ⟨result, rfl⟩ := Lane.exists_letter hr
  refine ⟨params, result, ?_, hvoids⟩
  rw [encodeLanes, ← htext, String.ofList_toList]

theorem exists_decode_iff_spelled (text : String) :
    (∃ lanes, decode text = .ok lanes) ↔ Spelled text := by
  constructor
  · intro ⟨⟨params, result⟩, h⟩
    obtain ⟨rfl, -, hvoids, -⟩ := decode_ok h
    exact spelled_encodeLanes result hvoids
  · intro h
    obtain ⟨params, result, rfl, hvoids⟩ := h.exists_lanes
    exact ⟨_, decode_encodeLanes result hvoids⟩

/-! ## What encoding produces -/

/-- A void parameter is spelled by a letter that is no parameter letter. -/
theorem exists_decode_encoded_iff (s : Signature) :
    (∃ lanes, decode s.encoded = .ok lanes) ↔ ∀ ty ∈ s.params, ty ≠ .void := by
  constructor
  · intro ⟨⟨params, result⟩, h⟩ ty hty hvoid
    obtain ⟨hencoded, -, hvoids, -⟩ := decode_ok h
    have hletter : 'v' ∈ s.paramLanes.map Lane.letter := by
      rw [paramLanes, List.map_map]
      exact List.mem_map.mpr ⟨ty, hty, Lane.letter_eq_v.mpr (Ty.lane_eq_void_iff.mpr hvoid)⟩
    rw [← (letters_of_encodeLanes hencoded).1] at hletter
    obtain ⟨lane, hlane, hv⟩ := List.mem_map.mp hletter
    exact hvoids lane hlane (Lane.letter_eq_v.mp hv)
  · intro h
    exact ⟨_, decode_encodeLanes s.resultLane (paramLanes_ne_void.mpr h)⟩

theorem lane_typeOfLane (lane : Lane) : (typeOfLane lane).lane = lane.plain := by
  cases lane <;> rfl

/-- A signature read from an encoding has that encoding. -/
theorem ofEncoded_of_decode {text : String} {lanes : List Lane × Lane}
    (h : decode text = .ok lanes) : ∃ t, ofEncoded text = .ok t ∧ t.encoded = text := by
  obtain ⟨params, result⟩ := lanes
  obtain ⟨htext, hplains, -, hplain⟩ := decode_ok h
  refine ⟨⟨params.map typeOfLane, typeOfLane result⟩, ?_, ?_⟩
  · rw [ofEncoded, h]
    rfl
  · have hparams : (params.map typeOfLane).map Ty.lane = params := by
      simpa [Function.comp_def, lane_typeOfLane] using hplains
    rw [encoded, paramLanes, resultLane, hparams, lane_typeOfLane, hplain, htext]

end Signature

open Signature in
/-- Signatures are encoded exactly. An encoded signature can be decoded if and only if none of its
parameters is void, and what is decoded are its lanes, booleans as integers; a signature read from
it has the same encoding. A text can be decoded if and only if it is a word of the grammar, it
is the encoding of what was decoded, and any other is reported as it stands. Two signatures with one
encoding have the same machine types. -/
theorem signatures_encode_exactly :
    (∀ s : Signature,
      ((∃ lanes, decode s.encoded = .ok lanes) ↔ ∀ ty ∈ s.params, ty ≠ .void) ∧
      ∀ lanes, decode s.encoded = .ok lanes →
        lanes = (s.paramLanes.map Lane.plain, s.resultLane.plain) ∧
        ∃ t, ofEncoded s.encoded = .ok t ∧ t.encoded = s.encoded) ∧
    (∀ text : String,
      ((∃ lanes, decode text = .ok lanes) ↔ Spelled text) ∧
      (¬ Spelled text → decode text = .error (.malformedSignature text)) ∧
      ∀ params result, decode text = .ok (params, result) → encodeLanes params result = text) ∧
    ∀ s t : Signature, s.encoded = t.encoded →
      s.paramLanes.filterMap Lane.valType? = t.paramLanes.filterMap Lane.valType? ∧
      s.resultLane.valType? = t.resultLane.valType? := by
  refine ⟨fun s => ⟨exists_decode_encoded_iff s, ?_⟩,
    fun text => ⟨exists_decode_iff_spelled text, ?_, ?_⟩, ?_⟩
  · intro lanes h
    have hvoids := paramLanes_ne_void.mpr ((exists_decode_encoded_iff s).mp ⟨lanes, h⟩)
    have hdecode := decode_encodeLanes s.resultLane hvoids
    exact ⟨Except.ok.inj (h.symm.trans hdecode), ofEncoded_of_decode h⟩
  · intro hspelled
    rcases decode_cases text with hdecoded | hfailed
    · exact absurd ((exists_decode_iff_spelled text).mp hdecoded) hspelled
    · exact hfailed
  · intro params result h
    exact (decode_ok h).1
  · intro s t h
    have htypes := Lower.funcType_eq_of_encoded h
    exact ⟨congrArg Wat.FuncType.params htypes, congrArg Wat.FuncType.result htypes⟩

namespace Blit

/-- `blit(wrap: bool, scale: f32, pixels: u8[]) -> void`. -/
def signature : Signature := ⟨[.bool, .f32, .array (.scalar .u8)], .void⟩

/-- The same function as a linker would describe it. -/
def linked : Signature := ⟨[.i32, .f32, .i32], .void⟩

end Blit

open Signature in
/-- The encoding of `blit` does not tell a boolean or an array from an integer, and is spelled again
by what is read from it. A void parameter and a second underscore are not decoded. -/
theorem blit_encoded_exactly :
    decode Blit.signature.encoded = .ok ([.int, .float, .int], .void) ∧
    (∃ t, ofEncoded Blit.signature.encoded = .ok t ∧ t.encoded = Blit.signature.encoded) ∧
    Blit.signature.paramLanes.filterMap Lane.valType? =
      Blit.linked.paramLanes.filterMap Lane.valType? ∧
    (¬ ∃ lanes, decode (encoded ⟨[.void], .i32⟩) = .ok lanes) ∧
    ¬ Spelled "i_f_i" := by
  obtain ⟨hencoded, htext, htypes⟩ := signatures_encode_exactly
  have hdecode : decode Blit.signature.encoded = .ok ([.int, .float, .int], .void) := rfl
  refine ⟨hdecode, ((hencoded Blit.signature).2 _ hdecode).2, ?_, ?_, ?_⟩
  · exact (htypes Blit.signature Blit.linked rfl).1
  · intro h
    exact (hencoded ⟨[.void], .i32⟩).1.mp h .void (List.mem_singleton.mpr rfl) rfl
  · intro h
    obtain ⟨lanes, hlanes⟩ := (htext "i_f_i").1.mpr h
    have herror : decode "i_f_i" = .error (.malformedSignature "i_f_i") := rfl
    rw [herror] at hlanes
    cases hlanes

end WasmBackend
