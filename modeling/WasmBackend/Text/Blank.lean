/-!
# White space

The characters with the `White_Space` property, and the two ways text is cut along them: dropping
them from both ends, and taking the first word. Both work on lists of characters, so that "nothing
is lost" and "the result is no longer than the input" are facts about lists.
-/

namespace WasmBackend.Text

/-- The `White_Space` property. -/
def isBlank (c : Char) : Bool :=
  let n := c.toNat
  (9 ≤ n && n ≤ 13) || n == 0x20 || n == 0x85 || n == 0xA0 || n == 0x1680 ||
    (0x2000 ≤ n && n ≤ 0x200A) || n == 0x2028 || n == 0x2029 || n == 0x202F || n == 0x205F ||
    n == 0x3000

/-- Drops white space at the end. -/
def trimRight : List Char → List Char
  | [] => []
  | c :: rest =>
    match trimRight rest with
    | [] => if isBlank c then [] else [c]
    | rest => c :: rest

/-- Drops white space at both ends. -/
def trim (cs : List Char) : List Char := trimRight (cs.dropWhile isBlank)

/-- The first word: what stands before the next white space, once leading white space is gone. -/
def firstWord (cs : List Char) : List Char :=
  (cs.dropWhile isBlank).takeWhile (fun c => !isBlank c)

theorem length_trimRight_le (cs : List Char) : (trimRight cs).length ≤ cs.length := by
  induction cs with
  | nil => simp [trimRight]
  | cons c rest ih =>
    unfold trimRight
    split
    · split <;> simp
    · simp_all

theorem length_trim_le (cs : List Char) : (trim cs).length ≤ cs.length :=
  Nat.le_trans (length_trimRight_le _) (List.dropWhile_suffix _).length_le

end WasmBackend.Text
