/-
This file settles which request paths name something below a root. The loop takes a path exactly
when it normalizes, its names pass the policy and a directory has an index: the empty segments it
skips for the leading and the trailing slash it skips in between as well.
-/

import ZeroServer.Static.Files

namespace ZeroServer.Uri

open Http1

/-! ### The segments of a normal path -/

/-- The octet a unit stands for. -/
def Item.octet : Item → UInt8
  | plain byte => byte
  | triplet high low => octetOf high low

/-- Valid units are decoded one by one. -/
theorem percentDecode_texts {items : List Item} (valid : ∀ item ∈ items, item.Valid)
    (offset : Nat) : percentDecode (texts items) offset = .ok (items.map Item.octet) := by
  induction items generalizing offset with
  | nil => rfl
  | cons item items inductionHypothesis =>
    have rest := inductionHypothesis fun item member => valid item (List.mem_cons_of_mem _ member)
    have here := valid item List.mem_cons_self
    rw [texts_cons]
    cases item with
    | plain byte =>
      show percentDecode (byte :: texts items) offset = _
      rw [percentDecode, if_neg here.ne_percent, rest]
      rfl
    | triplet high low =>
      show percentDecode (percent :: high :: low :: texts items) offset = _
      rw [percentDecode, if_pos rfl, percentOctet_valid here]
      dsimp only
      rw [rest]
      rfl

theorem Item.octet_normalize (item : Item) : item.normalize.octet = item.octet := by
  cases item with
  | plain byte => rfl
  | triplet high low =>
    by_cases unreserved : isUnreserved (octetOf high low) = true
    · rw [normalize_unreserved unreserved]
      rfl
    · rw [normalize_reserved unreserved]
      exact (upperHex_octet _).2.2.1

/-- Normalization keeps the octets a path stands for: its pass over the triplets changes none, and
behind that it only removes dot-segments. -/
theorem normalizePath_octets {path normal : Bytes} (done : normalizePath path = .ok normal) :
    ∃ spelled octets, normalizeTriplets path 0 = .ok spelled ∧
      percentDecode path 0 = .ok octets ∧ percentDecode spelled 0 = .ok octets ∧
      normal = removeDotSegments spelled ∧ (Dotless spelled → normal = spelled) := by
  obtain ⟨items, rfl, valid, rfl⟩ := normalizePath_ok done
  refine ⟨_, _, normalizeTriplets_texts valid 0, percentDecode_texts valid 0, ?_, rfl,
    removeDotSegments_dotless⟩
  rw [percentDecode_texts, List.map_map]
  · exact congrArg _ (List.map_congr_left fun item _ => item.octet_normalize)
  · exact List.forall_mem_map.mpr fun item held => (Item.normalize_normal (valid item held)).1

theorem normalizePath_octets_escaped : ∃ spelled octets,
    normalizeTriplets (ascii "/%61%2f") 0 = .ok spelled ∧
      percentDecode (ascii "/%61%2f") 0 = .ok octets ∧ percentDecode spelled 0 = .ok octets := by
  obtain ⟨spelled, octets, pass, before, after, -⟩ :=
    @normalizePath_octets (ascii "/%61%2f") (ascii "/a%2F") (by decide +kernel)
  exact ⟨spelled, octets, pass, before, after⟩

/-- What a path holds is held by its segments. -/
theorem Spelled.segment {path : Bytes} (spelled : Spelled path) :
    ∀ segment ∈ segmentsOf path, Spelled segment := by
  induction size : path.length using Nat.strongRecOn generalizing path with
  | ind length inductionHypothesis =>
    intro segment member
    by_cases slashed : slash ∈ path
    · obtain ⟨front, behind, rfl⟩ := List.append_of_mem slashed
      obtain ⟨first, second⟩ := spelled.cut
      rw [List.length_append, List.length_cons] at size
      rw [segmentsOf_append] at member
      rcases List.mem_append.mp member with inFront | inBehind
      · exact inductionHypothesis front.length (by omega) first rfl segment inFront
      · exact inductionHypothesis behind.length (by omega) second rfl segment inBehind
    · rw [segmentsOf_plain slashed, List.mem_singleton] at member
      exact member ▸ spelled

/-- The segments of a normalized path are decoded without an error. -/
theorem normalizePath_decodes {path normal : Bytes} (done : normalizePath path = .ok normal) :
    ∀ segment ∈ segmentsOf normal, ∃ name, percentDecode segment 0 = .ok name := by
  obtain ⟨items, rfl, valid, rfl⟩ := normalizePath_ok done
  intro segment member
  obtain ⟨units, rfl, fine⟩ :=
    (removeDotSegments_removing (spelled_normalize valid)).1.segment segment member
  exact ⟨_, percentDecode_texts (fun item member => (fine item member).1) 0⟩

end ZeroServer.Uri

namespace ZeroServer.Static

open Http1 Uri

variable {windows : Bool} {options : Options} {path normal : Bytes}

/-! ### What is accepted -/

/-- Every name that is not empty passes the policy. -/
def NamesPass (windows : Bool) (options : Options) (segments : List Bytes) : Prop :=
  ∀ segment ∈ segments, ∀ name, DecodesTo segment name → name ≠ [] → Passes windows options name

theorem dotfileRefusal_visible {name : Bytes}
    (visible : name.head? = some dot → options.dotfiles = .allow) :
    dotfileRefusal options name = none := by
  unfold dotfileRefusal
  split
  · rename_i dotted
    rw [visible dotted]
  · rfl

/-- The loop ends well exactly if every name passes. -/
theorem resolveSegments_passes {segments : List Bytes}
    (decodes : ∀ segment ∈ segments, ∃ name, DecodesTo segment name) (located : Located) :
    (∃ resolved, resolveSegments windows options segments located = .ok resolved) ↔
      NamesPass windows options segments := by
  induction segments generalizing located with
  | nil => exact ⟨fun _ => nofun, fun _ => ⟨located, rfl⟩⟩
  | cons segment rest inductionHypothesis =>
    have later := inductionHypothesis fun segment member =>
      decodes segment (List.mem_cons_of_mem _ member)
    obtain ⟨decoded, known⟩ := decodes segment List.mem_cons_self
    have here : NamesPass windows options (segment :: rest) ↔
        (decoded ≠ [] → Passes windows options decoded) ∧ NamesPass windows options rest := by
      unfold NamesPass
      rw [List.forall_mem_cons]
      refine and_congr_left fun _ => ⟨fun each => each decoded known, fun passes name other => ?_⟩
      rw [← Except.ok.inj (known.symm.trans other)]
      exact passes
    rw [here, resolveSegments]
    rw [show percentDecode segment 0 = .ok decoded from known]
    dsimp only
    by_cases empty : decoded = []
    · rw [if_pos empty, later]
      exact ⟨fun all => ⟨fun some_ => absurd empty some_, all⟩, And.right⟩
    rw [if_neg empty]
    constructor
    · rintro ⟨resolved, done⟩
      split at done
      · cases done
      rename_i allowed
      rw [Bool.not_eq_true, Bool.not_eq_false'] at allowed
      split at done
      · cases done
      rename_i visible
      split at done
      · cases done
      rename_i text read
      exact ⟨fun _ => ⟨allowed, by rw [read]; rfl, dotfileRefusal_none visible⟩,
        (later _).mp ⟨resolved, done⟩⟩
    · rintro ⟨passes, all⟩
      have passed := passes empty
      obtain ⟨text, read⟩ := Option.isSome_iff_exists.mp passed.text
      rw [passed.allowed, Bool.not_true, if_neg Bool.false_ne_true,
        dotfileRefusal_visible passed.visible]
      dsimp only
      rw [read]
      exact (later _).mpr all

/-- Whether a path means a directory: nothing stands behind its last slash. -/
def NamesDirectory (normal : Bytes) : Prop := (segmentsOf normal).getLast? = some []

/-- What a path has to be, apart from its empty segments. -/
structure Admitted (windows : Bool) (options : Options) (normal : Bytes) : Prop where
  passes : NamesPass windows options (segmentsOf normal)
  index : NamesDirectory normal → options.index.isSome = true

/-- A path is located exactly if it normalizes, its names pass and a directory has an index. -/
theorem locate_admitted :
    (∃ relative, locate windows options path = .ok relative) ↔
      ∃ normal, normalizePath path = .ok normal ∧ Admitted windows options normal := by
  have whole : (∃ relative, locate windows options path = .ok relative) ↔
      ∃ located, resolve windows options path = .ok located := by
    constructor
    · rintro ⟨relative, done⟩
      obtain ⟨directory, resolved⟩ := locate_ok done
      exact ⟨_, resolved⟩
    · rintro ⟨located, resolved⟩
      refine ⟨located.relative, ?_⟩
      unfold locate
      rw [resolved]
  rw [whole]
  unfold resolve
  cases done : normalizePath path with
  | error refused =>
    exact ⟨fun ⟨_, other⟩ => (nomatch other), fun ⟨_, other, _⟩ => (nomatch other)⟩
  | ok normal =>
    have loop := @resolveSegments_passes windows options _ (normalizePath_decodes done)
      ⟨[], normal.isEmpty⟩
    have only : (∃ other, Except.ok normal = (.ok other : Except UriError Bytes) ∧
        Admitted windows options other) ↔ Admitted windows options normal :=
      ⟨fun ⟨_, same, admitted⟩ => Except.ok.inj same ▸ admitted,
        fun admitted => ⟨normal, rfl, admitted⟩⟩
    rw [only]
    dsimp only
    cases looped : resolveSegments windows options (segmentsOf normal) ⟨[], normal.isEmpty⟩ with
    | error unserved =>
      refine ⟨fun ⟨_, other⟩ => (nomatch other), fun admitted => ?_⟩
      obtain ⟨resolved, other⟩ := loop.mpr admitted.passes
      rw [looped] at other
      cases other
    | ok resolved =>
      have passes := loop.mp ⟨resolved, looped⟩
      obtain ⟨-, -, -, -, ends⟩ := resolveSegments_ok looped
      obtain ⟨last, ended⟩ : ∃ last, (segmentsOf normal).getLast? = some last :=
        ⟨_, List.getLast?_eq_some_getLast (List.splitOnP_ne_nil _ normal)⟩
      have meant : resolved.directory = true ↔ NamesDirectory normal := by
        unfold NamesDirectory
        rw [ends, ended, Option.map_some, Option.getD_some, beq_iff_eq, Option.some.injEq]
      dsimp only
      cases directory : resolved.directory with
      | false =>
        refine ⟨fun _ => ⟨passes, fun named => ?_⟩, fun _ => ⟨resolved, rfl⟩⟩
        rw [meant.mpr named] at directory
        cases directory
      | true =>
        rw [if_pos rfl]
        cases configured : options.index with
        | none =>
          refine ⟨fun ⟨_, other⟩ => (nomatch other), fun admitted => ?_⟩
          have index := admitted.index (meant.mp directory)
          rw [configured] at index
          cases index
        | some index =>
          refine ⟨fun _ => ⟨passes, fun _ => ?_⟩, fun _ => ⟨_, rfl⟩⟩
          rw [configured]
          rfl

/-! ### Empty segments -/

/-- The segments between the first and the last slash. -/
def interior (normal : Bytes) : List Bytes := (segmentsOf normal).tail.dropLast

/-- The policy as it is documented: a segment that is empty makes the request a miss. -/
structure Documented (windows : Bool) (options : Options) (path : Bytes) : Prop where
  accepts : ∃ normal, normalizePath path = .ok normal ∧
    (∀ segment ∈ interior normal, ¬ DecodesTo segment []) ∧ Admitted windows options normal

/-- A path with an empty segment that nothing else refuses is located all the same. -/
theorem locate_skips_empty :
    ¬ ((∃ relative, locate false ⟨none, .ignore, []⟩ (ascii "/a//b") = .ok relative) ↔
      Documented false ⟨none, .ignore, []⟩ (ascii "/a//b")) := by
  intro claimed
  obtain ⟨normal, done, filled, -⟩ := (claimed.mp ⟨ascii "a/b", by decide +kernel⟩).accepts
  have same : normal = ascii "/a//b" :=
    Except.ok.inj (done.symm.trans (by decide : normalizePath (ascii "/a//b") = _))
  subst same
  exact filled [] (by decide) rfl

/-- The paths located are those the documentation accepts, unless a segment between two slashes is
empty and nothing else refuses the path. -/
theorem locate_documented (windows : Bool) (options : Options) (path : Bytes) :
    ((∃ relative, locate windows options path = .ok relative) ↔
        Documented windows options path) ↔
      ∀ normal, normalizePath path = .ok normal →
        [] ∉ interior normal ∨ ¬ Admitted windows options normal := by
  rw [locate_admitted]
  constructor
  · intro claimed normal done
    by_cases admitted : Admitted windows options normal
    · refine .inl fun empty => ?_
      obtain ⟨other, same, filled, -⟩ := (claimed.mp ⟨normal, done, admitted⟩).accepts
      rw [Except.ok.inj (same.symm.trans done)] at filled
      exact filled [] empty rfl
    · exact .inr admitted
  · intro filled
    constructor
    · rintro ⟨normal, done, admitted⟩
      refine ⟨normal, done, fun segment member empty => ?_, admitted⟩
      obtain rfl := percentDecode_nil.mp empty
      exact (filled normal done).elim (fun none_ => none_ member) fun other => other admitted
    · rintro ⟨normal, done, -, admitted⟩
      exact ⟨normal, done, admitted⟩

end ZeroServer.Static
