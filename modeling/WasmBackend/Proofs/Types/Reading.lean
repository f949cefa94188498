import WasmBackend.Types.Parser

/-!
# How annotations are taken apart

One step of reading: what trimming leaves, which characters names are made of, and the three ways in
which a text can spell a type (`Ty.ofChars?_cases`), each with its equation. What a whole annotation
looks like is left to its grammar.
-/

namespace WasmBackend

/-! ## Trimming -/

namespace Text

theorem trimRight_eq_self {cs : List Char} (h : ∀ c ∈ cs, isBlank c = false) :
    trimRight cs = cs := by
  induction cs with
  | nil => rfl
  | cons c rest ih =>
    obtain ⟨hc, hrest⟩ := List.forall_mem_cons.mp h
    rw [trimRight, ih hrest]
    cases rest with
    | nil => simp [hc]
    | cons d rest => rfl

/-- Text without white space stays as it is. -/
theorem trim_eq_self {cs : List Char} (h : ∀ c ∈ cs, isBlank c = false) : trim cs = cs := by
  have hdrop : cs.dropWhile isBlank = cs := by
    cases cs with
    | nil => rfl
    | cons c rest => simp [h c List.mem_cons_self]
  rw [trim, hdrop, trimRight_eq_self h]

theorem trimRight_cons {c : Char} (hc : isBlank c = false) (rest : List Char) :
    trimRight (c :: rest) = c :: trimRight rest := by
  rw [trimRight]
  cases trimRight rest with
  | nil => simp [hc]
  | cons d rest => rfl

/-- Trimming keeps a first character that is not blank. -/
theorem trim_cons {c : Char} (hc : isBlank c = false) (rest : List Char) :
    trim (c :: rest) = c :: trimRight rest := by
  rw [trim, List.dropWhile_cons_of_neg (by simp [hc]), trimRight_cons hc]

/-- What trimming leaves starts with a character that is not blank. -/
theorem isBlank_of_trim {cs rest : List Char} {c : Char} (h : trim cs = c :: rest) :
    isBlank c = false := by
  unfold trim at h
  cases hdrop : cs.dropWhile isBlank with
  | nil => rw [hdrop] at h; cases h
  | cons d tail =>
    have hd : isBlank d = false := by
      have hhead := List.head?_dropWhile_not isBlank cs
      rw [hdrop] at hhead
      simpa using hhead
    rw [hdrop, trimRight_cons hd] at h
    cases h
    exact hd

end Text

namespace Ty

variable {cs : List Char} {t : Ty} {c : Char}

/-! ## Names -/

/-- Names are made of characters from `0` up to `z`. -/
theorem toNat_of_isNameChar (h : isNameChar c = true) : 48 ≤ c.toNat ∧ c.toNat ≤ 122 := by
  change (((decide ('A'.val ≤ c.val ∧ c.val ≤ 'Z'.val) || ('a'.val ≤ c.val && c.val ≤ 'z'.val)) ||
    ('0'.val ≤ c.val && c.val ≤ '9'.val)) || c == '_') = true at h
  simp only [Bool.or_eq_true, Bool.and_eq_true, decide_eq_true_eq, beq_iff_eq,
    UInt32.le_iff_toNat_le] at h
  obtain ((⟨h₁, h₂⟩ | ⟨h₁, h₂⟩) | ⟨h₁, h₂⟩) | rfl := h
  · exact ⟨Nat.le_trans (by decide) h₁, Nat.le_trans h₂ (by decide)⟩
  · exact ⟨Nat.le_trans (by decide) h₁, Nat.le_trans h₂ (by decide)⟩
  · exact ⟨Nat.le_trans (by decide) h₁, Nat.le_trans h₂ (by decide)⟩
  · decide

theorem isBlank_of_isNameChar (h : isNameChar c = true) : Text.isBlank c = false := by
  have hrange := toNat_of_isNameChar h
  unfold Text.isBlank
  simp only [Bool.or_eq_false_iff, Bool.and_eq_false_iff, decide_eq_false_iff_not,
    beq_eq_false_iff_ne]
  omega

theorem ne_of_isNameChar (h : isNameChar c = true) : c ≠ '*' ∧ c ≠ ']' := by
  constructor
  · rintro rfl
    exact absurd h (by decide)
  · rintro rfl
    exact absurd h (by decide)

theorem isNameChar_of_isName (h : isName cs = true) : ∀ c ∈ cs, isNameChar c = true := by
  cases cs with
  | nil => nofun
  | cons first rest =>
    simp only [isName, Bool.and_eq_true, List.all_eq_true] at h
    refine List.forall_mem_cons.mpr ⟨?_, h.2⟩
    simp only [isNameStart, isNameChar, Char.isAlphanum, Bool.or_eq_true] at h ⊢
    exact h.1.imp_left .inl

/-- Whatever a bare name stands for, it is a name. -/
theorem isName_of_ofName? (h : ofName? cs = some t) : isName cs = true := by
  unfold ofName? at h
  simp only at h
  split at h
  · next hvoid =>
    have hcs : cs = "void".toList := by rw [← hvoid, String.toList_ofList]
    rw [hcs]
    decide
  · split at h
    · next s hs =>
      have hname : s.name = String.ofList cs := by simpa using List.find?_some hs
      have hcs : cs = s.name.toList := by rw [hname, String.toList_ofList]
      rw [hcs]
      cases s <;> decide
    · split at h
      · assumption
      · cases h

/-! ## Brackets -/

theorem beforeBrackets?_eq_some {rest : List Char} :
    beforeBrackets? cs = some rest ↔ cs = rest ++ ['[', ']'] := by
  unfold beforeBrackets?
  constructor
  · intro h
    split at h
    · next tail heq =>
      cases h
      rw [← List.reverse_reverse cs, heq]
      simp
    · cases h
  · rintro rfl
    simp

theorem beforeBrackets?_eq_none (h : ∀ c ∈ cs, isNameChar c = true) :
    beforeBrackets? cs = none := by
  refine Option.eq_none_iff_forall_ne_some.mpr fun rest hrest => ?_
  rw [beforeBrackets?_eq_some] at hrest
  exact (ne_of_isNameChar (h ']' (by simp [hrest]))).2 rfl

/-! ## Reading -/

/-- The three ways in which an annotation spells a type. -/
theorem ofChars?_cases (h : ofChars? cs = some t) :
    (∃ rest target, Text.trim cs = '*' :: rest ∧ ofChars? rest = some target ∧
        t = pointer target) ∨
      (∃ rest element, Text.trim cs = rest ++ ['[', ']'] ∧ rest.head? ≠ some '*' ∧
        ofChars? rest = some element ∧ t = array element) ∨
      ofName? (Text.trim cs) = some t := by
  rw [ofChars?] at h
  split at h
  · cases h
  · next rest htrim =>
    obtain ⟨target, htarget, rfl⟩ := Option.map_eq_some_iff.mp h
    exact .inl ⟨rest, target, htrim, htarget, rfl⟩
  · next hnil hstar =>
    split at h
    · next rest hrest =>
      obtain ⟨element, helement, rfl⟩ := Option.map_eq_some_iff.mp h
      rw [beforeBrackets?_eq_some] at hrest
      refine .inr (.inl ⟨rest, element, hrest, ?_, helement, rfl⟩)
      intro hhead
      cases rest with
      | nil => cases hhead
      | cons c tail =>
        cases hhead
        exact hstar _ hrest
    · exact .inr (.inr h)

theorem ofChars?_pointer {rest : List Char} (h : Text.trim cs = '*' :: rest) :
    ofChars? cs = (ofChars? rest).map pointer := by
  rw [ofChars?]
  split
  · next hnil => rw [h] at hnil; cases hnil
  · next heq =>
    rw [h] at heq
    cases heq
    rfl
  · next hstar => exact absurd h (hstar _)

theorem ofChars?_array {rest : List Char} (h : Text.trim cs = rest ++ ['[', ']'])
    (hstar : rest.head? ≠ some '*') : ofChars? cs = (ofChars? rest).map array := by
  rw [ofChars?]
  split
  · next hnil => rw [h] at hnil; simp at hnil
  · next heq =>
    rw [h] at heq
    cases rest with
    | nil => cases heq
    | cons c tail =>
      cases heq
      exact absurd rfl hstar
  · split
    · next hrest =>
      rw [beforeBrackets?_eq_some, h] at hrest
      rw [List.append_cancel_right hrest]
    · next hnone =>
      rw [beforeBrackets?_eq_some.mpr h] at hnone
      cases hnone

theorem ofChars?_name (h : ∀ c ∈ Text.trim cs, isNameChar c = true) :
    ofChars? cs = ofName? (Text.trim cs) := by
  rw [ofChars?]
  split
  · next hnil =>
    rw [hnil]
    decide
  · next heq => exact absurd rfl (ne_of_isNameChar (h '*' (by simp [heq]))).1
  · split
    · next hrest =>
      rw [beforeBrackets?_eq_none h] at hrest
      cases hrest
    · rfl

end Ty

end WasmBackend
