import WasmBackend.Proofs.Types.Reading

/-!
# The grammar of annotations

An annotation is a row of stars, an identifier and a row of bracket pairs, with white space anywhere
around these tokens and nowhere inside one. The grammar says so without mention of trimming or of an
order in which tokens are taken off (`Ty.Spaced`, `Ty.tokens`). Reading follows it exactly: texts
that are read are those of the grammar (`Ty.ofChars?_of_spaced`, `Ty.Spells.of_ofChars?`), and the
brackets end up inside the stars.

White space is all that an annotation can have besides its canonical spelling, so that spelling is
the annotation with the white space left out.

Since stars are taken off before brackets, an array of pointers has no spelling: its text would be
read as a pointer to an array. `Ty.Spellable` leaves out just that, and names that mean something
else. Whether the named structs exist is not asked here.
-/

namespace WasmBackend

/-! ## White space at the ends -/

namespace Text

/-- Nothing but white space. -/
def Blank (cs : List Char) : Prop := ∀ c ∈ cs, isBlank c = true

-- Not by the bounded quantifier: there are finitely many characters, and deciding could go through
-- all of them.
instance (cs : List Char) : Decidable (Blank cs) :=
  decidable_of_iff (cs.all isBlank = true) List.all_eq_true

theorem Blank.nil : Blank [] := by simp [Blank]

theorem trimRight_blank {gap : List Char} (h : Blank gap) : trimRight gap = [] := by
  induction gap with
  | nil => rfl
  | cons c rest ih =>
    obtain ⟨hc, hrest⟩ := List.forall_mem_cons.mp h
    simp [trimRight, ih hrest, hc]

theorem trimRight_append_blank (cs : List Char) {gap : List Char} (h : Blank gap) :
    trimRight (cs ++ gap) = trimRight cs := by
  induction cs with
  | nil => exact trimRight_blank h
  | cons c rest ih => simp only [List.cons_append, trimRight, ih]

theorem trim_blank_append {gap : List Char} (h : Blank gap) (cs : List Char) :
    trim (gap ++ cs) = trim cs := by
  rw [trim, trim, List.dropWhile_append_of_pos h]

theorem trim_append_blank (cs : List Char) {gap : List Char} (h : Blank gap) :
    trim (cs ++ gap) = trim cs := by
  rw [trim, trim, List.dropWhile_append]
  split
  · next hnil =>
    rw [List.isEmpty_iff] at hnil
    rw [hnil]
    exact trimRight_blank fun c hc => h c ((List.dropWhile_suffix _).mem hc)
  · exact trimRight_append_blank _ h

theorem exists_blank_trimRight (cs : List Char) :
    ∃ after, Blank after ∧ cs = trimRight cs ++ after := by
  induction cs with
  | nil => exact ⟨[], .nil, rfl⟩
  | cons c rest ih =>
    obtain ⟨after, hafter, heq⟩ := ih
    unfold trimRight
    split
    · next hnil =>
      rw [hnil, List.nil_append] at heq
      split
      · next hc => exact ⟨c :: rest, List.forall_mem_cons.mpr ⟨hc, heq ▸ hafter⟩, rfl⟩
      · exact ⟨rest, heq ▸ hafter, rfl⟩
    · exact ⟨after, hafter, congrArg (c :: ·) heq⟩

theorem blank_takeWhile (cs : List Char) : Blank (cs.takeWhile isBlank) :=
  fun c hc => List.all_eq_true.mp List.all_takeWhile c hc

/-- Trimming takes white space off both ends and nothing else. -/
theorem exists_blank_trim (cs : List Char) :
    ∃ before after, Blank before ∧ Blank after ∧ cs = before ++ (trim cs ++ after) := by
  obtain ⟨after, hafter, heq⟩ := exists_blank_trimRight (cs.dropWhile isBlank)
  refine ⟨cs.takeWhile isBlank, after, blank_takeWhile cs, hafter, ?_⟩
  rw [trim, ← heq, List.takeWhile_append_dropWhile]

theorem trim_trimRight (cs : List Char) : trim (trimRight cs) = trim cs := by
  obtain ⟨after, hafter, heq⟩ := exists_blank_trimRight cs
  rw [← trim_append_blank _ hafter, ← heq]

theorem trim_dropWhile (cs : List Char) : trim (cs.dropWhile isBlank) = trim cs := by
  rw [← trim_blank_append (blank_takeWhile cs), List.takeWhile_append_dropWhile]

/-- Nothing is left exactly of what is white space throughout. -/
theorem trim_eq_nil_iff {cs : List Char} : trim cs = [] ↔ Blank cs := by
  constructor
  · intro h
    obtain ⟨before, after, hbefore, hafter, heq⟩ := exists_blank_trim cs
    rw [h, List.nil_append] at heq
    rw [heq]
    exact List.forall_mem_append.mpr ⟨hbefore, hafter⟩
  · intro h
    rw [← List.append_nil cs, trim_blank_append h]
    rfl

theorem trimRight_concat (cs : List Char) {c : Char} (hc : isBlank c = false) :
    trimRight (cs ++ [c]) = cs ++ [c] := by
  induction cs with
  | nil => simp [trimRight, hc]
  | cons d rest ih =>
    rw [List.cons_append, trimRight, ih]
    cases rest <;> rfl

/-- Brackets at the end stay, and so does the white space before them. -/
theorem trim_brackets (cs : List Char) :
    trim (cs ++ ['[', ']']) = cs.dropWhile isBlank ++ ['[', ']'] := by
  have hdrop : (cs ++ ['[', ']']).dropWhile isBlank = cs.dropWhile isBlank ++ ['[', ']'] := by
    rw [List.dropWhile_append]
    split
    · next hnil =>
      rw [List.isEmpty_iff.mp hnil]
      decide
    · rfl
  have hsplit : ∀ cs : List Char, cs ++ ['[', ']'] = (cs ++ ['[']) ++ [']'] := by simp
  rw [trim, hdrop, hsplit, trimRight_concat _ (by decide)]

end Text

open Text (Blank)

namespace Ty

/-! ## The grammar -/

/-- What an annotation is made of, white space apart. -/
inductive Token where
  | star
  | name (text : String)
  | brackets
  deriving DecidableEq

def Token.chars : Token → List Char
  | star => ['*']
  | name text => text.toList
  | brackets => ['[', ']']

/-- The text is these tokens in order, with white space around them. -/
inductive Spaced : List Token → List Char → Prop
  | blank {gap : List Char} (hgap : Blank gap) : Spaced [] gap
  | token (gap : List Char) (token : Token) {rest : List Token} {cs : List Char}
      (hgap : Blank gap) (hrest : Spaced rest cs) :
      Spaced (token :: rest) (gap ++ (token.chars ++ cs))

/-- The characters that may begin an identifier. -/
def Letter (c : Char) : Prop := ('a' ≤ c ∧ c ≤ 'z') ∨ ('A' ≤ c ∧ c ≤ 'Z') ∨ c = '_'

def Digit (c : Char) : Prop := '0' ≤ c ∧ c ≤ '9'

/-- A letter, and then letters and digits. -/
def Identifier (name : String) : Prop :=
  ∃ first rest, name.toList = first :: rest ∧ Letter first ∧ ∀ c ∈ rest, Letter c ∨ Digit c

/-- What an identifier stands for. -/
inductive Denotes : String → Ty → Prop
  | void : Denotes "void" void
  | scalar (s : Scalar) : Denotes s.name (scalar s)
  | struct {name : String} (hvoid : name ≠ "void") (hscalar : ∀ s : Scalar, name ≠ s.name) :
      Denotes name (named name)

/-- The tokens of an annotation. -/
def tokens (stars : Nat) (name : String) (brackets : Nat) : List Token :=
  List.replicate stars .star ++ .name name :: List.replicate brackets .brackets

/-- The type of an annotation: brackets bind closer than stars. -/
def wrapped (stars brackets : Nat) (base : Ty) : Ty :=
  Nat.repeat pointer stars (Nat.repeat array brackets base)

/-! ## Identifiers -/

variable {cs : List Char} {t : Ty} {name source : String}

theorem letter_iff {c : Char} : Letter c ↔ isNameStart c = true := by
  unfold Letter
  change _ ↔ ((decide ('A'.val ≤ c.val ∧ c.val ≤ 'Z'.val) ||
    ('a'.val ≤ c.val && c.val ≤ 'z'.val)) || c == '_') = true
  simp only [Bool.or_eq_true, Bool.and_eq_true, decide_eq_true_eq, beq_iff_eq, Char.le_def]
  rw [← or_assoc, or_comm (a := 'a'.val ≤ c.val ∧ c.val ≤ 'z'.val)]

theorem letter_or_digit_iff {c : Char} : Letter c ∨ Digit c ↔ isNameChar c = true := by
  have hdigit : Digit c ↔ c.isDigit = true := by
    change _ ↔ ('0'.val ≤ c.val && c.val ≤ '9'.val) = true
    simp only [Digit, Bool.and_eq_true, decide_eq_true_eq, Char.le_def]
  rw [letter_iff, hdigit]
  simp only [isNameStart, isNameChar, Char.isAlphanum, Bool.or_eq_true]
  rw [or_right_comm]

theorem identifier_iff : Identifier name ↔ isName name.toList = true := by
  unfold Identifier
  cases name.toList with
  | nil => simp [isName]
  | cons first rest =>
    simp only [isName, Bool.and_eq_true, List.all_eq_true, ← letter_iff, ← letter_or_digit_iff,
      List.cons.injEq]
    constructor
    · rintro ⟨_, _, ⟨rfl, rfl⟩, hfirst, hrest⟩
      exact ⟨hfirst, hrest⟩
    · rintro ⟨hfirst, hrest⟩
      exact ⟨first, rest, ⟨rfl, rfl⟩, hfirst, hrest⟩

/-- A bare name is an identifier, and stands for what it denotes. -/
theorem ofName?_eq_some_iff : ofName? name.toList = some t ↔ Identifier name ∧ Denotes name t := by
  constructor
  · intro h
    refine ⟨identifier_iff.mpr (isName_of_ofName? h), ?_⟩
    unfold ofName? at h
    simp only [String.ofList_toList] at h
    split at h
    · next hvoid =>
      cases h
      exact hvoid ▸ .void
    · next hvoid =>
      split at h
      · next s hs =>
        cases h
        have hname : s.name = name := by simpa using List.find?_some hs
        exact hname ▸ .scalar s
      · next hscalar =>
        split at h
        · cases h
          refine .struct hvoid fun s heq => ?_
          have := List.find?_eq_none.mp hscalar s (by cases s <;> decide)
          simp [heq] at this
        · cases h
  · rintro ⟨hname, hdenotes⟩
    cases hdenotes with
    | void => decide
    | scalar s => cases s <;> decide
    | struct hvoid hscalar =>
      have hnone : Scalar.ofName? name = none :=
        List.find?_eq_none.mpr fun s _ => by simpa using (hscalar s).symm
      simp only [ofName?, String.ofList_toList, if_neg hvoid, hnone,
        if_pos (identifier_iff.mp hname)]

/-- Every identifier stands for some type. -/
theorem exists_denotes (name : String) : ∃ t, Denotes name t := by
  by_cases hvoid : name = "void"
  · exact ⟨void, hvoid ▸ .void⟩
  · by_cases hscalar : ∃ s : Scalar, s.name = name
    · obtain ⟨s, rfl⟩ := hscalar
      exact ⟨scalar s, .scalar s⟩
    · exact ⟨named name, .struct hvoid fun s heq => hscalar ⟨s, heq.symm⟩⟩

theorem Denotes.text_eq (h : Denotes name t) : t.text = name := by
  cases h <;> rfl

/-! ## Spaced tokens -/

namespace Spaced

variable {ts ts' : List Token} {cs cs' gap : List Char}

theorem nil_iff : Spaced [] cs ↔ Blank cs := by
  refine ⟨fun h => ?_, .blank⟩
  cases h with
  | blank hgap => exact hgap

theorem cons_iff {token : Token} : Spaced (token :: ts) cs ↔
    ∃ gap rest, Blank gap ∧ Spaced ts rest ∧ cs = gap ++ (token.chars ++ rest) := by
  constructor
  · intro h
    cases h with
    | token gap _ hgap hrest => exact ⟨gap, _, hgap, hrest, rfl⟩
  · rintro ⟨gap, rest, hgap, hrest, rfl⟩
    exact .token gap token hgap hrest

theorem blank_append (h : Spaced ts cs) (hgap : Blank gap) : Spaced ts (gap ++ cs) := by
  cases h with
  | blank hcs => exact .blank (List.forall_mem_append.mpr ⟨hgap, hcs⟩)
  | token inner token hinner hrest =>
    rw [← List.append_assoc]
    exact .token (gap ++ inner) token (List.forall_mem_append.mpr ⟨hgap, hinner⟩) hrest

theorem append (h : Spaced ts cs) (h' : Spaced ts' cs') : Spaced (ts ++ ts') (cs ++ cs') := by
  induction h with
  | blank hgap => exact h'.blank_append hgap
  | token gap token hgap hrest ih =>
    rw [List.cons_append, List.append_assoc, List.append_assoc]
    exact .token gap token hgap ih

/-- Nothing need stand between tokens. -/
theorem flatMap_chars (ts : List Token) : Spaced ts (ts.flatMap Token.chars) := by
  induction ts with
  | nil => exact .blank .nil
  | cons token rest ih => exact .token [] token .nil ih

theorem single (token : Token) : Spaced [token] token.chars := by
  simpa using flatMap_chars [token]

/-- The text of two rows of tokens can be cut between them. -/
theorem exists_append (h : Spaced (ts ++ ts') cs) :
    ∃ before after, cs = before ++ after ∧ Spaced ts before ∧ Spaced ts' after := by
  induction ts generalizing cs with
  | nil => exact ⟨[], cs, rfl, .blank .nil, h⟩
  | cons token rest ih =>
    obtain ⟨gap, _, hgap, hrest, rfl⟩ := cons_iff.mp h
    obtain ⟨before, after, rfl, hbefore, hafter⟩ := ih hrest
    exact ⟨_, after, by simp, .token gap token hgap hbefore, hafter⟩

/-- Without its white space, the text is the characters of its tokens. -/
theorem filter_eq (h : Spaced ts cs)
    (hts : ∀ token ∈ ts, ∀ c ∈ token.chars, Text.isBlank c = false) :
    cs.filter (fun c => !Text.isBlank c) = ts.flatMap Token.chars := by
  induction h with
  | blank hgap => exact List.filter_eq_nil_iff.mpr fun c hc => by simp [hgap c hc]
  | token gap token hgap hrest ih =>
    obtain ⟨htoken, hts⟩ := List.forall_mem_cons.mp hts
    rw [List.filter_append, List.filter_append, ih hts, List.flatMap_cons,
      List.filter_eq_nil_iff.mpr fun c hc => by simp [hgap c hc],
      List.filter_eq_self.mpr fun c hc => by simp [htoken c hc], List.nil_append]

end Spaced

theorem tokens_notBlank {stars brackets : Nat} (hname : Identifier name) :
    ∀ token ∈ tokens stars name brackets, ∀ c ∈ token.chars, Text.isBlank c = false := by
  intro token htoken
  simp only [tokens, List.mem_append, List.mem_cons, List.mem_replicate] at htoken
  obtain ⟨-, rfl⟩ | rfl | ⟨-, rfl⟩ := htoken
  · exact List.forall_mem_singleton.mpr rfl
  · exact fun c hc => isBlank_of_isNameChar (isNameChar_of_isName (identifier_iff.mp hname) c hc)
  · exact List.forall_mem_cons.mpr ⟨rfl, List.forall_mem_singleton.mpr rfl⟩

/-- The canonical spelling is the tokens without anything between them. -/
theorem text_wrapped {base : Ty} (h : Denotes name base) (stars brackets : Nat) :
    (wrapped stars brackets base).text.toList =
      (tokens stars name brackets).flatMap Token.chars := by
  have harrays : (Nat.repeat array brackets base).text.toList =
      name.toList ++ (List.replicate brackets Token.brackets).flatMap Token.chars := by
    induction brackets with
    | zero => simp [Nat.repeat, h.text_eq]
    | succ n ih => simp [Nat.repeat, text, ih, List.replicate_succ', Token.chars]
  induction stars with
  | zero => simpa [wrapped, tokens, Nat.repeat, Token.chars] using harrays
  | succ n ih =>
    simp only [wrapped, tokens, Nat.repeat, text, String.toList_append] at ih ⊢
    rw [ih]
    simp [List.replicate_succ, Token.chars]

/-! ## Reading -/

/-- White space at the ends does not matter. -/
theorem ofChars?_congr {cs' : List Char} (h : Text.trim cs = Text.trim cs') :
    ofChars? cs = ofChars? cs' := by
  rw [ofChars?, ofChars?, h]

/-- An annotation without stars does not start with one. -/
theorem Spaced.head_name {ts : List Token} (hname : Identifier name)
    (h : Spaced (.name name :: ts) cs) : (cs.dropWhile Text.isBlank).head? ≠ some '*' := by
  obtain ⟨gap, after, hgap, -, rfl⟩ := cons_iff.mp h
  have hchars := isNameChar_of_isName (identifier_iff.mp hname)
  obtain ⟨first, rest, hfirst, -⟩ := hname
  have hchar : isNameChar first = true := hchars first (by simp [hfirst])
  rw [List.dropWhile_append_of_pos hgap, Token.chars, hfirst, List.cons_append,
    List.dropWhile_cons_of_neg (by simp [isBlank_of_isNameChar hchar])]
  simpa using (ne_of_isNameChar hchar).1

section

variable {name : String} {base : Ty} {cs : List Char} (hname : Identifier name)
variable (hbase : Denotes name base)

include hname hbase

/-- Brackets are taken off at the end, down to the name. -/
theorem ofChars?_of_brackets {brackets : Nat}
    (h : Spaced (.name name :: List.replicate brackets .brackets) cs) :
    ofChars? cs = some (Nat.repeat array brackets base) := by
  induction brackets generalizing cs with
  | zero =>
    obtain ⟨gap, gap', hgap, hgap', rfl⟩ := Spaced.cons_iff.mp h
    have hchars := isNameChar_of_isName (identifier_iff.mp hname)
    have htrim : Text.trim (gap ++ (name.toList ++ gap')) = name.toList := by
      rw [Text.trim_blank_append hgap, Text.trim_append_blank _ (Spaced.nil_iff.mp hgap'),
        Text.trim_eq_self fun c hc => isBlank_of_isNameChar (hchars c hc)]
    rw [Token.chars, ofChars?_name (by rwa [htrim]), htrim]
    exact ofName?_eq_some_iff.mpr ⟨hname, hbase⟩
  | succ n ih =>
    rw [List.replicate_succ', ← List.cons_append] at h
    obtain ⟨before, _, rfl, hbefore, hlast⟩ := h.exists_append
    obtain ⟨gap, gap', hgap, hgap', rfl⟩ := Spaced.cons_iff.mp hlast
    have hinner : Spaced (.name name :: List.replicate n .brackets) (before ++ gap) := by
      simpa using hbefore.append (.blank hgap)
    have htrim : Text.trim (before ++ (gap ++ (['[', ']'] ++ gap'))) =
        (before ++ gap).dropWhile Text.isBlank ++ ['[', ']'] := by
      rw [← Text.trim_brackets, ← Text.trim_append_blank (before ++ gap ++ _)
        (Spaced.nil_iff.mp hgap')]
      simp
    have hread : ofChars? ((before ++ gap).dropWhile Text.isBlank) =
        some (Nat.repeat array n base) := by
      rw [ofChars?_congr (Text.trim_dropWhile _)]
      exact ih hinner
    rw [Token.chars, ofChars?_array htrim (hinner.head_name hname), hread]
    rfl

/-- Stars are taken off in front, before any brackets. -/
theorem ofChars?_of_spaced {stars brackets : Nat} (h : Spaced (tokens stars name brackets) cs) :
    ofChars? cs = some (wrapped stars brackets base) := by
  induction stars generalizing cs with
  | zero => exact ofChars?_of_brackets hname hbase h
  | succ n ih =>
    obtain ⟨gap, rest, hgap, hrest, rfl⟩ := Spaced.cons_iff.mp h
    have htrim : Text.trim (gap ++ (['*'] ++ rest)) = '*' :: Text.trimRight rest := by
      rw [Text.trim_blank_append hgap]
      exact Text.trim_cons (by decide) rest
    rw [Token.chars, ofChars?_pointer htrim, ofChars?_congr (Text.trim_trimRight rest), ih hrest]
    rfl

end

/-- The annotation spells the type: the tokens are the grammar's, and the type is theirs. -/
def Spells (cs : List Char) (t : Ty) : Prop :=
  ∃ stars name brackets base, Identifier name ∧ Denotes name base ∧
    Spaced (tokens stars name brackets) cs ∧ t = wrapped stars brackets base

/-- A bare name has neither stars nor brackets, whatever it stands for. -/
theorem Spells.of_ofName? (h : ofName? cs = some t) : Spells cs t := by
  rw [← String.toList_ofList (l := cs)] at h
  obtain ⟨hname, hdenotes⟩ := ofName?_eq_some_iff.mp h
  refine ⟨0, String.ofList cs, 0, t, hname, hdenotes, ?_, rfl⟩
  simpa [tokens, Token.chars] using Spaced.single (.name (String.ofList cs))

theorem Spells.of_trim (h : Spells (Text.trim cs) t) : Spells cs t := by
  obtain ⟨stars, name, brackets, base, hname, hbase, hspaced, ht⟩ := h
  obtain ⟨before, after, hbefore, hafter, heq⟩ := Text.exists_blank_trim cs
  refine ⟨stars, name, brackets, base, hname, hbase, ?_, ht⟩
  rw [heq]
  simpa using (hspaced.append (.blank hafter)).blank_append hbefore

/-- What is read is an annotation of the grammar. -/
theorem Spells.of_ofChars? (h : ofChars? cs = some t) : Spells cs t := by
  induction t generalizing cs with
  | pointer target ih =>
    obtain ⟨rest, _, htrim, hrest, ⟨⟩⟩ | ⟨_, _, -, -, -, ⟨⟩⟩ | hread := ofChars?_cases h
    · obtain ⟨stars, name, brackets, base, hname, hbase, hspaced, rfl⟩ := ih hrest
      refine of_trim ⟨stars + 1, name, brackets, base, hname, hbase, ?_, rfl⟩
      rw [htrim]
      exact (Spaced.single .star).append hspaced
    · exact (of_ofName? hread).of_trim
  | array element ih =>
    obtain ⟨_, _, -, -, ⟨⟩⟩ | ⟨rest, _, htrim, hstar, hrest, ⟨⟩⟩ | hread := ofChars?_cases h
    · obtain ⟨stars, name, brackets, base, hname, hbase, hspaced, rfl⟩ := ih hrest
      cases stars with
      | succ n =>
        -- The element starts where the array does, and that is not with a star.
        obtain ⟨gap, after, hgap, -, rfl⟩ := Spaced.cons_iff.mp hspaced
        cases gap with
        | nil => exact absurd rfl hstar
        | cons c gap =>
          have hblank := hgap c List.mem_cons_self
          rw [Text.isBlank_of_trim htrim] at hblank
          cases hblank
      | zero =>
        refine of_trim ⟨0, name, brackets + 1, base, hname, hbase, ?_, rfl⟩
        rw [htrim]
        simpa [tokens, List.replicate_succ', Token.chars]
          using hspaced.append (Spaced.single .brackets)
    · exact (of_ofName? hread).of_trim
  | _ =>
    obtain ⟨_, _, -, -, ⟨⟩⟩ | ⟨_, _, -, -, -, ⟨⟩⟩ | hread := ofChars?_cases h
    exact (of_ofName? hread).of_trim

theorem ofChars?_eq_some_iff : ofChars? cs = some t ↔ Spells cs t := by
  refine ⟨Spells.of_ofChars?, ?_⟩
  rintro ⟨stars, name, brackets, base, hname, hbase, hspaced, rfl⟩
  exact ofChars?_of_spaced hname hbase hspaced

/-! ## Annotations -/

theorem parse_eq_ok_iff : parse source = .ok t ↔ Spells source.toList t := by
  rw [← ofChars?_eq_some_iff]
  unfold parse
  split
  · next hempty =>
    rw [List.isEmpty_iff] at hempty
    have hnone : ofName? [] = none := by decide
    rw [ofChars?_name (by simp [hempty]), hempty, hnone]
    simp
  · cases ofChars? source.toList <;> simp

theorem parse_eq_empty_iff : parse source = .error .empty ↔ Blank source.toList := by
  rw [← Text.trim_eq_nil_iff, ← List.isEmpty_iff]
  unfold parse
  split
  · next hempty => simp [hempty]
  · next hempty => cases ofChars? source.toList <;> simp [hempty]

/-- An error is about the whole text. -/
theorem parse_error {e : TypeError} (h : parse source = .error e) :
    e = .empty ∨ e = .invalid source := by
  unfold parse at h
  split at h
  · cases h
    exact .inl rfl
  · split at h
    · cases h
    · cases h
      exact .inr rfl

/-- The canonical spelling of a type is any annotation of it, without the white space. -/
theorem Spells.text_eq (h : Spells cs t) : t.text.toList = cs.filter fun c => !Text.isBlank c := by
  obtain ⟨stars, name, brackets, base, hname, hbase, hspaced, rfl⟩ := h
  rw [text_wrapped hbase, hspaced.filter_eq (tokens_notBlank hname)]

/-! ## Spellable types -/

def isPointer : Ty → Bool
  | pointer _ => true
  | _ => false

/-- The types that an annotation can spell: no array is one of pointers, and a name is a name of
nothing else. -/
def Spellable : Ty → Prop
  | scalar _ => True
  | void => True
  | named name => ofName? name.toList = some (named name)
  | pointer t => t.Spellable
  | array t => t.Spellable ∧ t.isPointer = false

/-- They are the types that annotations have. -/
theorem spellable_iff : t.Spellable ↔ ∃ stars name brackets base, Identifier name ∧
    Denotes name base ∧ t = wrapped stars brackets base := by
  constructor
  · intro h
    have hnamed (name : String) {t : Ty} (h : ofName? name.toList = some t) :
        ∃ stars name brackets base, Identifier name ∧ Denotes name base ∧
          t = wrapped stars brackets base := by
      obtain ⟨hname, hbase⟩ := ofName?_eq_some_iff.mp h
      exact ⟨0, name, 0, t, hname, hbase, rfl⟩
    induction t with
    | scalar s => exact hnamed s.name (by cases s <;> decide)
    | void => exact hnamed "void" (by decide)
    | named name => exact hnamed name h
    | pointer target ih =>
      obtain ⟨stars, name, brackets, base, hname, hbase, rfl⟩ := ih h
      exact ⟨stars + 1, name, brackets, base, hname, hbase, rfl⟩
    | array element ih =>
      obtain ⟨stars, name, brackets, base, hname, hbase, rfl⟩ := ih h.1
      cases stars with
      | succ n => cases h.2
      | zero => exact ⟨0, name, brackets + 1, base, hname, hbase, rfl⟩
  · rintro ⟨stars, name, brackets, base, hname, hbase, rfl⟩
    have harrays : (Nat.repeat array brackets base).Spellable ∧
        (Nat.repeat array brackets base).isPointer = false := by
      induction brackets with
      | zero =>
        cases hbase with
        | struct hvoid hscalar =>
          exact ⟨ofName?_eq_some_iff.mpr ⟨hname, .struct hvoid hscalar⟩, rfl⟩
        | _ => exact ⟨trivial, rfl⟩
      | succ n ih => exact ⟨ih, rfl⟩
    induction stars with
    | zero => exact harrays.1
    | succ n ih => exact ih

/-- A type can be read from its text. -/
theorem parse_text (h : t.Spellable) : parse t.text = .ok t := by
  obtain ⟨stars, name, brackets, base, hname, hbase, rfl⟩ := spellable_iff.mp h
  refine parse_eq_ok_iff.mpr ⟨stars, name, brackets, base, hname, hbase, ?_, rfl⟩
  rw [text_wrapped hbase]
  exact .flatMap_chars _

-- The text of an array of pointers is read as something else.
example : ofChars? (array (pointer i32)).text.toList = some (pointer (array i32)) := by
  decide +kernel

/-- Only spellable types are read. -/
theorem Spellable.of_parse (h : parse source = .ok t) : t.Spellable := by
  obtain ⟨stars, name, brackets, base, hname, hbase, -, ht⟩ := parse_eq_ok_iff.mp h
  exact spellable_iff.mpr ⟨stars, name, brackets, base, hname, hbase, ht⟩

/-- Annotations are read exactly as their grammar says. A text is read if and only if it is a row of
stars, an identifier and a row of bracket pairs, with white space around these; the type is then the
one that the identifier stands for, in arrays, in pointers. The type's own text is that annotation
without white space, and is read as the same type. A text that is not read is empty if there is
nothing in it but white space, and otherwise it is invalid as a whole. -/
theorem annotations_read_exactly (source : String) :
    ((∃ t, parse source = .ok t) ↔ ∃ stars name brackets, Identifier name ∧
      Spaced (tokens stars name brackets) source.toList) ∧
    (∀ stars name brackets, Identifier name → Spaced (tokens stars name brackets) source.toList →
      ∃ base, Denotes name base ∧ parse source = .ok (wrapped stars brackets base)) ∧
    (∀ t, parse source = .ok t → parse t.text = .ok t ∧
      t.text.toList = source.toList.filter fun c => !Text.isBlank c) ∧
    (parse source = .error .empty ↔ Blank source.toList) ∧
    ∀ e, parse source = .error e → ¬ Blank source.toList → e = .invalid source := by
  have hread (stars : Nat) (name : String) (brackets : Nat) (hname : Identifier name)
      (hspaced : Spaced (tokens stars name brackets) source.toList) :
      ∃ base, Denotes name base ∧ parse source = .ok (wrapped stars brackets base) := by
    obtain ⟨base, hbase⟩ := exists_denotes name
    exact ⟨base, hbase,
      parse_eq_ok_iff.mpr ⟨stars, name, brackets, base, hname, hbase, hspaced, rfl⟩⟩
  refine ⟨⟨?_, ?_⟩, hread, ?_, parse_eq_empty_iff, ?_⟩
  · rintro ⟨t, ht⟩
    obtain ⟨stars, name, brackets, base, hname, -, hspaced, -⟩ := parse_eq_ok_iff.mp ht
    exact ⟨stars, name, brackets, hname, hspaced⟩
  · rintro ⟨stars, name, brackets, hname, hspaced⟩
    obtain ⟨base, -, hok⟩ := hread stars name brackets hname hspaced
    exact ⟨_, hok⟩
  · intro t ht
    exact ⟨parse_text (.of_parse ht), (parse_eq_ok_iff.mp ht).text_eq⟩
  · intro e he hblank
    rcases parse_error he with rfl | rfl
    · exact absurd (parse_eq_empty_iff.mp he) hblank
    · rfl

/-- White space may stand around a pair of brackets, but not inside it. -/
theorem starred_bytes_read :
    (Identifier "u8" ∧ Spaced (tokens 2 "u8" 1) "\t* *u8 [] ".toList ∧
      ∃ base, Denotes "u8" base ∧ parse "\t* *u8 [] " = .ok (wrapped 2 1 base)) ∧
    ¬ Blank "* u8[ ]".toList ∧ parse "* u8[ ]" = .error (.invalid "* u8[ ]") := by
  have hname : Identifier "u8" := identifier_iff.mpr (by decide)
  have hlast : Spaced [] [' '] := .blank (by decide)
  have hspaced : Spaced (tokens 2 "u8" 1) "\t* *u8 [] ".toList :=
    .token ['\t'] .star (by decide) <| .token [' '] .star (by decide) <|
      .token [] (.name "u8") (by decide) <| .token [' '] .brackets (by decide) hlast
  have hblank : ¬ Blank "* u8[ ]".toList := by decide
  obtain ⟨-, hread, -⟩ := annotations_read_exactly "\t* *u8 [] "
  obtain ⟨-, -, -, -, hinvalid⟩ := annotations_read_exactly "* u8[ ]"
  refine ⟨⟨hname, hspaced, hread 2 "u8" 1 hname hspaced⟩, hblank, ?_⟩
  have hfails : (parse "* u8[ ]").toOption = none := by decide +kernel
  cases h : parse "* u8[ ]" with
  | ok t => simp [h, Except.toOption] at hfails
  | error e => rw [hinvalid e h hblank]

end Ty

end WasmBackend
