/-
This file models what the router does to a path before it matches: the query is split off,
percent-encodings are brought to their normal form and dot-segments are removed. A path that is
already normal is returned as it stands, and normalization never makes a path longer.
-/

import ZeroServer.Http1.Grammar

namespace ZeroServer.Uri

open Http1

/-- Why input was refused. -/
inductive UriError where
  | invalidPercent (offset : Nat)
  | invalidByte (offset : Nat)
  | invalidScheme
  | invalidPath
  deriving DecidableEq

def slash : UInt8 := 47
def percent : UInt8 := 37
def question : UInt8 := 63
def dot : UInt8 := 46

/-- A byte that may appear in a path segment outside a percent-encoding. -/
def isPchar (byte : UInt8) : Bool :=
  isUnreserved byte || isSubDelim byte || (ascii ":@").contains byte

/-- The value of a hexadecimal digit, in either case. -/
def hexValue (byte : UInt8) : Option UInt8 :=
  if 48 ≤ byte ∧ byte ≤ 57 then some (byte - 48)
  else if 65 ≤ byte ∧ byte ≤ 70 then some (byte - 65 + 10)
  else if 97 ≤ byte ∧ byte ≤ 102 then some (byte - 97 + 10)
  else none

/-- Split a request target into its path and query at the first `?`. -/
def splitQuery (target : Bytes) : Bytes × Option Bytes :=
  match target.findIdx? (· == question) with
  | some place => (target.take place, some (target.drop (place + 1)))
  | none => (target, none)

/-- The octet of a triplet, from what stands behind its `%`. -/
def percentOctet (behind : Bytes) (offset : Nat) : Except UriError UInt8 :=
  match behind[0]?.bind hexValue, behind[1]?.bind hexValue with
  | some high, some low => .ok (high <<< 4 ||| low)
  | _, _ => .error (.invalidPercent offset)

/-- The bytes percent-encoded ones stand for; an error says where its `%` is. -/
def percentDecode : Bytes → Nat → Except UriError Bytes
  | [], _ => .ok []
  | byte :: behind, offset =>
    if byte = percent then
      match percentOctet behind offset with
      | .error refused => .error refused
      | .ok octet =>
        match behind with
        | _ :: _ :: rest => (octet :: ·) <$> percentDecode rest (offset + 3)
        | _ => .error (.invalidPercent offset)
    else (byte :: ·) <$> percentDecode behind (offset + 1)

def isDotSegment (segment : Bytes) : Bool := segment = [dot] ∨ segment = [dot, dot]

/-- The rest of the check: what is left of the path and where it starts, the segment read so far,
and whether everything was normal. -/
def isNormalFrom : Bytes → Nat → Bytes → Bool → Except UriError Bool
  | [], _, segment, normal => .ok (normal && !isDotSegment segment)
  | byte :: behind, offset, segment, normal =>
    if byte = percent then
      match percentOctet behind offset with
      | .error refused => .error refused
      | .ok octet =>
        match behind with
        | high :: low :: rest =>
          let spelled := normal && !(isUnreserved octet || [high, low].any isAsciiLowercase)
          isNormalFrom rest (offset + 3) (segment ++ [byte, high, low]) spelled
        | _ => .error (.invalidPercent offset)
    else if byte = slash then
      isNormalFrom behind (offset + 1) [] (normal && !isDotSegment segment)
    else if isPchar byte then isNormalFrom behind (offset + 1) (segment ++ [byte]) normal
    else .error (.invalidByte offset)

/-- Whether a path is already in the form normalization gives it. -/
def isNormalPath (path : Bytes) : Except UriError Bool := isNormalFrom path 0 [] true

def upperHex (nibble : UInt8) : UInt8 :=
  if nibble &&& 0x0F ≤ 9 then 48 + (nibble &&& 0x0F) else 65 + ((nibble &&& 0x0F) - 10)

/-- The percent-encoding normalizations: unreserved octets decoded, the digits of the other
triplets in upper case. -/
def normalizeTriplets : Bytes → Nat → Except UriError Bytes
  | [], _ => .ok []
  | byte :: behind, offset =>
    if byte = percent then
      match percentOctet behind offset with
      | .error refused => .error refused
      | .ok octet =>
        match behind with
        | _ :: _ :: rest => do
          let after ← normalizeTriplets rest (offset + 3)
          if isUnreserved octet then return octet :: after
          else return percent :: upperHex (octet >>> 4) :: upperHex (octet &&& 0x0F) :: after
        | _ => .error (.invalidPercent offset)
    else do
      let after ← normalizeTriplets behind (offset + 1)
      return byte :: after

/-- The output without its last segment and the `/` in front of it. -/
def popSegment (output : Bytes) : Bytes :=
  output.take (output.length - 1 - output.reverse.findIdx (· == slash))

/-- The length of the first segment of the input, with its leading `/`. -/
def firstSegment (rest : Bytes) : Nat :=
  let start := if rest.head? = some slash then 1 else 0
  start + (rest.drop start).findIdx (· == slash)

/-- One round of the loop that removes dot-segments: the rest of the input, and the output. -/
def removeDotStep (rest output : Bytes) : Bytes × Bytes :=
  if rest.take 3 = [dot, dot, slash] then (rest.drop 3, output)
  else if rest.take 2 = [dot, slash] then (rest.drop 2, output)
  else if rest.take 3 = [slash, dot, slash] then
    if rest.drop 3 = [] then ([], output ++ [slash]) else (rest.drop 2, output)
  else if rest = [slash, dot] then ([slash], output)
  else if rest.take 4 = [slash, dot, dot, slash] then (rest.drop 3, popSegment output)
  else if rest = [slash, dot, dot] then ([slash], popSegment output)
  else if rest = [dot] ∨ rest = [dot, dot] then ([], output)
  else (rest.drop (firstSegment rest), output ++ rest.take (firstSegment rest))

/-- The loop, for a number of rounds. -/
def removeDotRounds : Nat → Bytes → Bytes → Bytes
  | 0, _, output => output
  | rounds + 1, rest, output =>
    if rest = [] then output
    else removeDotRounds rounds (removeDotStep rest output).1 (removeDotStep rest output).2

/-- `remove_dot_segments`: every round takes at least one byte of the input, so its length bounds
the rounds. -/
def removeDotSegments (path : Bytes) : Bytes := removeDotRounds path.length path []

/-- Normalize a path for matching. -/
def normalizePath (path : Bytes) : Except UriError Bytes :=
  match isNormalPath path with
  | .error refused => .error refused
  | .ok true => .ok path
  | .ok false => do
    let spelled ← normalizeTriplets path 0
    return removeDotSegments spelled

/-! ### The loop ends -/

variable {rest : Bytes}

theorem firstSegment_pos (more : rest ≠ []) : 0 < firstSegment rest := by
  obtain ⟨byte, behind, rfl⟩ := List.exists_cons_of_ne_nil more
  unfold firstSegment
  dsimp only
  by_cases lead : byte = slash
  · rw [List.head?_cons, if_pos (congrArg some lead)]
    omega
  · rw [List.head?_cons, if_neg (fun same => lead (Option.some.inj same)), List.drop_zero,
      List.findIdx_cons, beq_false_of_ne lead]
    exact Nat.succ_pos _

/-- A round takes from the input, and what it adds to the output it took from the input. -/
theorem removeDotStep_length (more : rest ≠ []) (output : Bytes) :
    (removeDotStep rest output).1.length < rest.length ∧
      (removeDotStep rest output).1.length + (removeDotStep rest output).2.length ≤
        rest.length + output.length := by
  have positive := firstSegment_pos more
  have nonempty := List.length_pos_iff.mpr more
  have popped : (popSegment output).length ≤ output.length := by
    unfold popSegment
    rw [List.length_take]
    exact Nat.min_le_right _ _
  have long : ∀ {count : Nat} {text : Bytes}, rest.take count = text → text.length ≤ rest.length := by
    rintro count text rfl
    exact List.length_take_le' _ _
  unfold removeDotStep
  split
  · rename_i shape
    have := long shape
    simp only [List.length_drop, List.length_cons, List.length_nil] at this ⊢
    omega
  split
  · rename_i shape
    have := long shape
    simp only [List.length_drop, List.length_cons, List.length_nil] at this ⊢
    omega
  split
  · rename_i shape
    have := long shape
    split
    · simp only [List.length_append, List.length_cons, List.length_nil] at this ⊢
      omega
    · simp only [List.length_drop, List.length_cons, List.length_nil] at this ⊢
      omega
  split
  · rename_i shape
    rw [shape]
    simp only [List.length_cons, List.length_nil]
    omega
  split
  · rename_i shape
    have := long shape
    simp only [List.length_drop, List.length_cons, List.length_nil] at this ⊢
    omega
  split
  · rename_i shape
    rw [shape]
    simp only [List.length_cons, List.length_nil]
    omega
  split
  · simp only [List.length_nil]
    omega
  · simp only [List.length_drop, List.length_append, List.length_take]
    omega

/-! ### Normalization never lengthens -/

theorem removeDotRounds_length (rounds : Nat) (rest output : Bytes) :
    (removeDotRounds rounds rest output).length ≤ rest.length + output.length := by
  induction rounds generalizing rest output with
  | zero => exact Nat.le_add_left _ _
  | succ rounds inductionHypothesis =>
    rw [removeDotRounds]
    split
    · exact Nat.le_add_left _ _
    · rename_i more
      exact Nat.le_trans (inductionHypothesis _ _) (removeDotStep_length more output).2

theorem normalizeTriplets_length (path : Bytes) (offset : Nat) {spelled : Bytes}
    (done : normalizeTriplets path offset = .ok spelled) : spelled.length ≤ path.length := by
  fun_induction normalizeTriplets path offset generalizing spelled with
  | case1 => cases done; exact Nat.le_refl _
  | case2 => cases done
  | case3 offset octet high low rest _ inductionHypothesis =>
    rcases after : normalizeTriplets rest (offset + 3) with refused | text
    · rw [after] at done
      cases done
    · rw [after] at done
      have shorter := inductionHypothesis after
      simp only [List.length_cons]
      dsimp only [bind, Except.bind] at done
      split at done
      · cases done
        simp only [List.length_cons]
        omega
      · cases done
        simp only [List.length_cons]
        omega
  | case4 => cases done
  | case5 byte behind offset _ inductionHypothesis =>
    rcases after : normalizeTriplets behind (offset + 1) with refused | text
    · rw [after] at done
      cases done
    · rw [after] at done
      cases done
      simp only [List.length_cons]
      have := inductionHypothesis after
      omega

/-- Normalization never makes a path longer. -/
theorem normalizePath_length {path normal : Bytes} (done : normalizePath path = .ok normal) :
    normal.length ≤ path.length := by
  unfold normalizePath at done
  split at done
  · cases done
  · cases done
    exact Nat.le_refl _
  · rcases spelled : normalizeTriplets path 0 with refused | text
    · rw [spelled] at done
      cases done
    · rw [spelled] at done
      cases done
      exact Nat.le_trans (removeDotRounds_length _ _ _) (normalizeTriplets_length _ _ spelled)

/-! ### An absolute path stays absolute -/

variable {output : Bytes}

/-- Between two rounds on an absolute path: the output is absolute as far as there is one, and what
is left of the input is absolute or the output is all there is. -/
def Absolute (rest output : Bytes) : Prop :=
  (output = [] ∨ output.head? = some slash) ∧
    (rest.head? = some slash ∨ (rest = [] ∧ output ≠ []))

theorem popSegment_absolute (absolute : output = [] ∨ output.head? = some slash) :
    popSegment output = [] ∨ (popSegment output).head? = some slash := by
  unfold popSegment
  rcases absolute with rfl | lead
  · exact .inl List.take_nil
  · rw [List.head?_take]
    split
    · rename_i none_
      rw [none_]
      exact .inl List.take_zero
    · exact .inr lead

theorem removeDotStep_absolute (absolute : Absolute rest output) (more : rest ≠ []) :
    Absolute (removeDotStep rest output).1 (removeDotStep rest output).2 := by
  obtain ⟨led, lead | ⟨none_, -⟩⟩ := absolute
  · obtain ⟨behind, rfl⟩ : ∃ behind, rest = slash :: behind := by
      cases rest with
      | nil => cases lead
      | cons first behind =>
        cases lead
        exact ⟨behind, rfl⟩
    have append : ∀ segment : Bytes, output ++ slash :: segment ≠ [] ∧
        (output ++ slash :: segment).head? = some slash := by
      intro segment
      refine ⟨by simp, ?_⟩
      rcases led with rfl | lead
      · rfl
      · rw [List.head?_append, lead]
        rfl
    unfold removeDotStep
    split
    · rename_i shape
      cases (List.cons.inj shape).1
    split
    · rename_i shape
      cases (List.cons.inj shape).1
    split
    · rename_i shape
      split
      · exact ⟨.inr (append []).2, .inr ⟨rfl, (append []).1⟩⟩
      · refine ⟨led, .inl ?_⟩
        rw [← List.take_append_drop 3 (slash :: behind), shape]
        rfl
    split
    · exact ⟨led, .inl rfl⟩
    split
    · rename_i shape
      refine ⟨popSegment_absolute led, .inl ?_⟩
      rw [← List.take_append_drop 4 (slash :: behind), shape]
      rfl
    split
    · exact ⟨popSegment_absolute led, .inl rfl⟩
    split
    · rename_i shape
      rcases shape with shape | shape <;> cases (List.cons.inj shape).1
    · have length : firstSegment (slash :: behind) = behind.findIdx (· == slash) + 1 := by
        unfold firstSegment
        dsimp only
        rw [List.head?_cons, if_pos rfl, List.drop_one, List.tail_cons, Nat.add_comm]
      rw [length, List.take_succ_cons, List.drop_succ_cons]
      refine ⟨.inr (append _).2, ?_⟩
      by_cases more : behind.findIdx (· == slash) < behind.length
      · refine .inl ?_
        rw [List.drop_eq_getElem_cons more, List.head?_cons]
        exact congrArg some (eq_of_beq (List.findIdx_getElem (w := more)))
      · exact .inr ⟨List.drop_eq_nil_of_le (Nat.le_of_not_lt more), (append _).1⟩
  · exact absurd none_ more

theorem removeDotRounds_absolute {rounds : Nat} (absolute : Absolute rest output)
    (enough : rest.length ≤ rounds) : (removeDotRounds rounds rest output).head? = some slash := by
  induction rounds generalizing rest output with
  | zero =>
    have empty := List.length_eq_zero_iff.mp (Nat.le_zero.mp enough)
    rw [removeDotRounds]
    rcases absolute with ⟨led, lead | ⟨-, some_⟩⟩
    · rw [empty] at lead
      cases lead
    · exact led.resolve_left some_
  | succ rounds inductionHypothesis =>
    rw [removeDotRounds]
    split
    · rename_i empty
      rcases absolute with ⟨led, lead | ⟨-, some_⟩⟩
      · rw [empty] at lead
        cases lead
      · exact led.resolve_left some_
    · rename_i more
      have shorter := (removeDotStep_length more output).1
      exact inductionHypothesis (removeDotStep_absolute absolute more) (by omega)

/-- Normalization keeps the leading `/`. -/
theorem normalizePath_absolute {path normal : Bytes} (absolute : path.head? = some slash)
    (done : normalizePath path = .ok normal) : normal.head? = some slash := by
  obtain ⟨behind, rfl⟩ : ∃ behind, path = slash :: behind := by
    cases path with
    | nil => cases absolute
    | cons first behind =>
      cases absolute
      exact ⟨behind, rfl⟩
  unfold normalizePath at done
  split at done
  · cases done
  · cases done
    rfl
  · rcases spelled : normalizeTriplets (slash :: behind) 0 with refused | text
    · rw [spelled] at done
      cases done
    · rw [spelled] at done
      cases done
      refine removeDotRounds_absolute ⟨.inl rfl, .inl ?_⟩ (Nat.le_refl _)
      rw [normalizeTriplets, if_neg (by decide)] at spelled
      rcases after : normalizeTriplets behind (0 + 1) with refused | rest
      · rw [after] at spelled
        cases spelled
      · rw [after] at spelled
        cases spelled
        rfl

end ZeroServer.Uri
