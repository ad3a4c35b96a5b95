/-
This file proves what a settings payload has to be: pairs of integers in any encoding, no identifier
twice, none that HTTP/2 reserved, and 0 or 1 for the settings that are switches.
-/

import ZeroServer.H3.Encode

namespace ZeroServer.H3.Settings

open Http1 Varint

/-! ### Pairs -/

variable {payload : Bytes}

/-- Octets that are pairs of integers, in encodings of any length. -/
inductive Spells : List (Nat × Nat) → Bytes → Prop
  | nil : Spells [] []
  | cons {id value : Nat} {pairs : List (Nat × Nat)} {first second rest : Bytes}
      (isId : Encodes id first) (isValue : Encodes value second) (later : Spells pairs rest) :
      Spells ((id, value) :: pairs) (first ++ (second ++ rest))

/-- What the pairs make of the settings so far. -/
def setAll (settings : Settings) : List (Nat × Nat) → Except Error Settings
  | [] => .ok settings
  | (id, value) :: rest =>
    match settings.set id value with
    | .error refused => .error refused
    | .ok next => next.setAll rest

theorem setAll_append (settings : Settings) (first second : List (Nat × Nat)) :
    settings.setAll (first ++ second) =
      match settings.setAll first with
      | .error refused => .error refused
      | .ok next => next.setAll second := by
  induction first generalizing settings with
  | nil => rfl
  | cons pair rest inductionHypothesis =>
    obtain ⟨id, value⟩ := pair
    rw [List.cons_append, setAll, setAll]
    rcases settings.set id value with refused | next
    · rfl
    · exact inductionHypothesis next

theorem parsePairs_eq (settings : Settings) (seen : List Nat) (rest : Bytes) :
    parsePairs settings seen rest =
      if rest = [] then .ok (settings, seen)
      else
        match Varint.decode rest with
        | none => .error (.payloadTruncated FrameType.settings)
        | some (id, idLen) =>
          match Varint.decode (rest.drop idLen) with
          | none => .error (.payloadTruncated FrameType.settings)
          | some (value, valueLen) =>
            if isReservedHttp2 id then .error (.reservedSetting id)
            else
              match settings.set id value with
              | .error refused => .error refused
              | .ok next => parsePairs next (seen ++ [id]) ((rest.drop idLen).drop valueLen) := by
  rw [parsePairs]
  by_cases empty : rest = []
  · rw [if_pos empty, if_pos empty]
  · rw [if_neg empty, if_neg empty]
    split <;> rename_i decoded <;> rw [decoded] <;> rfl

/-- Pairs are read one after the other, whatever their encodings. -/
theorem parsePairs_spells {pairs : List (Nat × Nat)} (spells : Spells pairs payload)
    (allowed : ∀ pair ∈ pairs, isReservedHttp2 pair.1 = false) (settings : Settings)
    (seen : List Nat) :
    parsePairs settings seen payload =
      (settings.setAll pairs).map fun read => (read, seen ++ pairs.map Prod.fst) := by
  induction spells generalizing settings seen with
  | nil =>
    rw [parsePairs_eq, if_pos rfl, List.map_nil, List.append_nil]
    rfl
  | @cons id value pairs first second rest isId isValue later inductionHypothesis =>
    have some_ : first ++ (second ++ rest) ≠ [] := fun empty =>
      encodes_some isId (List.append_eq_nil_iff.mp empty).1
    have head := decode_append (encodes_iff.mp isId) (second ++ rest)
    have next := decode_append (encodes_iff.mp isValue) rest
    rw [parsePairs_eq, if_neg some_, head]
    dsimp only
    rw [List.drop_left, next]
    dsimp only
    rw [List.drop_left, allowed _ List.mem_cons_self, if_neg Bool.false_ne_true, setAll]
    rcases settings.set id value with refused | after
    · rfl
    · dsimp only
      rw [inductionHypothesis fun pair member => allowed pair (List.mem_cons_of_mem _ member),
        List.append_assoc]
      rfl

/-- What is read are pairs. -/
theorem spells_of_parsePairs {settings result : Settings} {seen ids : List Nat}
    (read : parsePairs settings seen payload = .ok (result, ids)) :
    ∃ pairs, Spells pairs payload ∧ (∀ pair ∈ pairs, isReservedHttp2 pair.1 = false) ∧
      settings.setAll pairs = .ok result ∧ ids = seen ++ pairs.map Prod.fst := by
  induction size : payload.length using Nat.strongRecOn generalizing settings seen payload with
  | ind size inductionHypothesis =>
    rw [parsePairs_eq] at read
    by_cases empty : payload = []
    · rw [if_pos empty] at read
      cases read
      exact ⟨[], empty ▸ .nil, nofun, rfl, (List.append_nil _).symm⟩
    rw [if_neg empty] at read
    rcases first : Varint.decode payload with _ | ⟨id, idLen⟩
    · rw [first] at read
      cases read
    rw [first] at read
    dsimp only at read
    rcases second : Varint.decode (payload.drop idLen) with _ | ⟨value, valueLen⟩
    · rw [second] at read
      cases read
    rw [second] at read
    dsimp only at read
    rcases reserved : isReservedHttp2 id with _ | _
    · rw [reserved, if_neg Bool.false_ne_true] at read
      rcases set : settings.set id value with refused | next
      · rw [set] at read
        cases read
      · rw [set] at read
        dsimp only at read
        have used := decode_taken first
        obtain ⟨pairs, spells, allowed, all, same⟩ :=
          inductionHypothesis _ (by simp only [List.length_drop]; omega) read rfl
        have whole := Spells.cons ⟨idLen, octets_of_decode first⟩
          ⟨valueLen, octets_of_decode second⟩ spells
        rw [List.take_append_drop, List.take_append_drop] at whole
        refine ⟨_, whole, ?_, ?_, ?_⟩
        · exact List.forall_mem_cons.mpr ⟨reserved, allowed⟩
        · rw [setAll, set]
          exact all
        · rw [same, List.append_assoc]
          rfl
    · rw [reserved, if_pos rfl] at read
      cases read

/-! ### Duplicates -/

/-- Sorted, two equal numbers are neighbours. -/
theorem repeated_none {numbers : List Nat} (sorted : numbers.Pairwise (· ≤ ·)) :
    repeated numbers = none ↔ numbers.Nodup := by
  induction numbers with
  | nil => exact iff_of_true rfl List.nodup_nil
  | cons first rest inductionHypothesis =>
    cases rest with
    | nil => exact iff_of_true rfl (List.nodup_singleton first)
    | cons second rest =>
      obtain ⟨least, later⟩ := List.pairwise_cons.mp sorted
      rw [repeated, List.nodup_cons, ← inductionHypothesis later]
      by_cases same : first = second
      · rw [if_pos same]
        exact iff_of_false nofun fun both => both.1 (same ▸ List.mem_cons_self)
      · rw [if_neg same]
        refine (and_iff_right fun member => ?_).symm
        rcases List.mem_cons.mp member with equal | behind
        · exact same equal
        · have above := (List.pairwise_cons.mp later).1 first behind
          exact same (Nat.le_antisymm (least second List.mem_cons_self) above)

theorem repeated_sorted (numbers : List Nat) :
    repeated (numbers.insertionSort (· ≤ ·)) = none ↔ numbers.Nodup := by
  rw [repeated_none (List.pairwise_insertionSort _ _)]
  exact (List.perm_insertionSort _ _).nodup_iff

/-! ### What parses -/

theorem parse_iff {settings : Settings} :
    parse payload = .ok settings ↔ ∃ pairs, Spells pairs payload ∧
      (∀ pair ∈ pairs, isReservedHttp2 pair.1 = false) ∧ (pairs.map Prod.fst).Nodup ∧
      setAll {} pairs = .ok settings := by
  unfold parse
  constructor
  · intro read
    rcases all : parsePairs {} [] payload with refused | ⟨result, ids⟩
    · rw [all] at read
      cases read
    · obtain ⟨pairs, spells, allowed, set, same⟩ := spells_of_parsePairs all
      rw [all] at read
      dsimp only at read
      rcases twice : repeated (ids.insertionSort (· ≤ ·)) with _ | id
      · rw [twice] at read
        cases read
        rw [repeated_sorted, same] at twice
        exact ⟨pairs, spells, allowed, twice, set⟩
      · rw [twice] at read
        cases read
  · rintro ⟨pairs, spells, allowed, distinct, set⟩
    rw [parsePairs_spells spells allowed, set]
    dsimp only [Except.map]
    rw [List.nil_append, (repeated_sorted _).mpr distinct]

/-- The settings that are switches. -/
def Switch (id : Nat) : Prop := id = 0x08 ∨ id = 0x33

theorem flag_spec (id value : Nat) :
    (value ≤ 1 → ∃ on, flag id value = .ok on) ∧
      (1 < value → ∃ refused, flag id value = .error refused) := by
  match value with
  | 0 => exact ⟨fun _ => ⟨_, rfl⟩, nofun⟩
  | 1 => exact ⟨fun _ => ⟨_, rfl⟩, nofun⟩
  | more + 2 => exact ⟨fun small => absurd small (by omega), fun _ => ⟨_, rfl⟩⟩

theorem set_spec (settings : Settings) (id value : Nat) :
    (∃ next, settings.set id value = .ok next) ↔ (Switch id → value ≤ 1) := by
  obtain ⟨small, large⟩ := flag_spec id value
  have switch : ∀ make : Bool → Settings,
      (∃ next, (flag id value).map make = .ok next) ↔ value ≤ 1 := by
    intro make
    constructor
    · rintro ⟨next, set⟩
      refine Nat.le_of_not_lt fun above => ?_
      obtain ⟨refused, same⟩ := large above
      rw [same] at set
      cases set
    · intro bound
      obtain ⟨on, same⟩ := small bound
      rw [same]
      exact ⟨_, rfl⟩
  unfold set Switch
  split
  · exact iff_of_true ⟨_, rfl⟩ (by omega)
  · exact iff_of_true ⟨_, rfl⟩ (by omega)
  · exact iff_of_true ⟨_, rfl⟩ (by omega)
  · rw [switch]
    exact ⟨fun bound _ => bound, fun bound => bound (.inl rfl)⟩
  · rw [switch]
    exact ⟨fun bound _ => bound, fun bound => bound (.inr rfl)⟩
  · rename_i connect datagram
    exact iff_of_true ⟨_, rfl⟩ fun either => (either.elim connect datagram).elim

theorem setAll_spec (settings : Settings) (pairs : List (Nat × Nat)) :
    (∃ result, settings.setAll pairs = .ok result) ↔ ∀ pair ∈ pairs, Switch pair.1 → pair.2 ≤ 1 := by
  induction pairs generalizing settings with
  | nil => exact iff_of_true ⟨_, rfl⟩ nofun
  | cons pair rest inductionHypothesis =>
    obtain ⟨id, value⟩ := pair
    rw [List.forall_mem_cons, ← set_spec settings id value, setAll]
    rcases settings.set id value with refused | next
    · exact iff_of_false nofun fun both => nomatch both.1
    · exact (inductionHypothesis next).trans (and_iff_right ⟨next, rfl⟩).symm

/-- A payload parses exactly if it is pairs of integers in any encoding, with distinct identifiers,
none of those HTTP/2 reserved, and 0 or 1 for the switches. -/
theorem parse_accepts (payload : Bytes) :
    (∃ settings, parse payload = .ok settings) ↔ ∃ pairs, Spells pairs payload ∧
      (pairs.map Prod.fst).Nodup ∧ (∀ pair ∈ pairs, pair.1 < 0x02 ∨ 0x05 < pair.1) ∧
      ∀ pair ∈ pairs, Switch pair.1 → pair.2 ≤ 1 := by
  have free : ∀ id, isReservedHttp2 id = false ↔ id < 0x02 ∨ 0x05 < id := by
    intro id
    simp only [isReservedHttp2, List.contains_eq_mem, List.mem_cons, List.not_mem_nil, or_false,
      decide_eq_false_iff_not]
    omega
  simp only [parse_iff, free]
  constructor
  · rintro ⟨settings, pairs, spells, allowed, distinct, set⟩
    exact ⟨pairs, spells, distinct, allowed, (setAll_spec {} pairs).mp ⟨settings, set⟩⟩
  · rintro ⟨pairs, spells, distinct, allowed, switches⟩
    obtain ⟨settings, set⟩ := (setAll_spec {} pairs).mpr switches
    exact ⟨settings, pairs, spells, allowed, distinct, set⟩

end ZeroServer.H3.Settings
