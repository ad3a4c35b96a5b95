/-
This file proves what the steps of the reader do: what a trim leaves of dark bytes, what a pair, a
token and the text of an address are read as, and where a split cuts.
-/

import ZeroServer.Policy.Splitting

namespace ZeroServer.Policy

open Http1 Splitting

/-! ### Bytes of one kind -/

variable {kind : UInt8 → Bool} {bytes : Bytes}

theorem ne_of_all (all : bytes.all kind = true) {byte : UInt8} (out : kind byte = false) :
    ∀ other ∈ bytes, other ≠ byte := by
  rintro other member rfl
  rw [List.all_eq_true.mp all other member] at out
  cases out

theorem trim_of_edges (first : ∀ byte, bytes.head? = some byte → isOws byte = false)
    (last : ∀ byte, bytes.getLast? = some byte → isOws byte = false) : trim bytes = bytes := by
  unfold trim
  have left : bytes.dropWhile isOws = bytes := by
    cases bytes with
    | nil => rfl
    | cons byte bytes => exact List.dropWhile_cons_of_neg (by rw [first byte rfl]; decide)
  rw [left]
  refine List.rdropWhile_eq_self_iff.mpr fun some_ => ?_
  rw [last _ (List.getLast?_eq_some_getLast some_)]
  decide

/-! ### Tokens -/

/-- A nonempty text of token characters. -/
def IsToken (scheme : Bytes) : Prop := scheme ≠ [] ∧ scheme.all isTchar = true

/-- No mark of the grammar is an octet of a token. -/
theorem mark_isTchar : ∀ mark ∈ [quote, backslash, comma, semicolon, equals, sp, htab],
    isTchar mark = false := by decide +kernel

theorem notOws_of_all (all : bytes.all kind = true) (noSpace : kind sp = false)
    (noTab : kind htab = false) : ∀ byte ∈ bytes, isOws byte = false := by
  intro byte member
  unfold isOws
  rw [beq_eq_false_iff_ne.mpr (ne_of_all all noSpace byte member),
    beq_eq_false_iff_ne.mpr (ne_of_all all noTab byte member)]
  rfl

theorem token_dark {scheme : Bytes} (token : IsToken scheme) :
    ∀ byte ∈ scheme, isOws byte = false :=
  notOws_of_all token.2 (mark_isTchar _ (by decide)) (mark_isTchar _ (by decide))

/-! ### What a member says -/

theorem pair_eq {state : ElementState} {name raw : Bytes} (plain : equals ∉ name) :
    state.pair (name ++ equals :: raw) =
      (unquote (trim raw)).bind fun value => state.set (trim name) (trim raw) value := by
  have place : (name ++ equals :: raw).findIdx? (· == equals) = some name.length := by
    rw [List.findIdx?_append, List.findIdx?_eq_none_iff.mpr, List.findIdx?_cons, if_pos (by decide)]
    · rw [Option.none_or, Option.map_some, Nat.zero_add]
    · intro byte member
      exact beq_eq_false_iff_ne.mpr fun same => plain (same ▸ member)
  unfold ElementState.pair
  rw [if_neg (by simp), place]
  show (unquote (trim ((name ++ equals :: raw).drop (name.length + 1)))).bind _ = _
  have behind : (name ++ equals :: raw).drop (name.length + 1) = raw := by
    rw [← List.drop_drop, List.drop_left]
    rfl
  rw [behind, List.take_left]

theorem unquote_token {value : Bytes} (token : IsToken value) : unquote value = some value := by
  have noQuote : value.head? ≠ some quote := fun first =>
    ne_of_all token.2 (mark_isTchar _ (by decide)) quote (List.mem_of_head? first) rfl
  unfold unquote
  rw [if_neg noQuote, if_neg]
  rintro (empty | other)
  · exact token.1 empty
  · rw [token.2] at other
    cases other

theorem nodeName_ipv4 {text : Bytes} {address : BitVec 32} (spells : parseIpv4 text = some address) :
    NodeName.parse text = some (.ip (.v4 address)) := by
  obtain ⟨some_, all⟩ := parseIpv4_bytes spells
  have lower : text.map toAsciiLowercase = text := by
    refine (List.map_congr_left fun byte member => ?_).trans (List.map_id _)
    have four : ∀ byte : Fin 256, isIpv4Byte ⟨⟨byte⟩⟩ = true →
        toAsciiLowercase ⟨⟨byte⟩⟩ = ⟨⟨byte⟩⟩ := by decide +kernel
    exact four byte.toBitVec.toFin (List.all_eq_true.mp all byte member)
  have known : eqIgnoreAsciiCase text (ascii "unknown") = false := by
    refine beq_eq_false_iff_ne.mpr fun same => ?_
    rw [lower] at same
    rw [same] at all
    exact absurd all (by decide)
  have plain : isObfuscated text = false := by
    have first : text.head? ≠ some 95 := fun first =>
      ne_of_all all (by decide) 95 (List.mem_of_head? first) rfl
    unfold isObfuscated
    rw [beq_eq_false_iff_ne.mpr first, Bool.and_false, Bool.false_and]
  unfold NodeName.parse
  rw [if_neg (by rw [known]; decide), if_neg (by rw [plain]; decide), spells]
  rfl

theorem step_cut {separator : UInt8} {state : Splitting} (outside : state.quoted = false)
    (unescaped : state.escaped = false) (apart : separator ≠ quote) :
    state.step separator separator = state.cut := by
  unfold step
  rw [if_neg (by rw [unescaped]; decide), if_neg (by rw [outside]; decide), if_neg apart,
    if_pos rfl]

theorem trim_of_dark (dark : ∀ byte ∈ bytes, isOws byte = false) : trim bytes = bytes :=
  trim_of_edges (fun byte first => dark byte (List.mem_of_head? first))
    fun byte last => dark byte (List.mem_of_getLast? last)

end ZeroServer.Policy
