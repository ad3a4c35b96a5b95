/-
This file models the cache of small files and settles what it keeps. Its count is exact and within
the budget in every run. Its queue names the cached files, once each and the oldest first, as long
as no file is found changed: a changed file leaves the entries but not the queue.
-/

import ZeroServer.Lib.Sized
import ZeroServer.Static.Entry

namespace ZeroServer.Static

open Http1 Lib

/-! ### The cache -/

/-- The largest number a count of bytes takes. -/
def usizeMax : Nat := 2 ^ 64 - 1

/-- The largest file that is kept, and how much is kept at most. -/
structure CacheLimits where
  smallFileLimit : UInt64
  cacheBudget : UInt64
  deriving DecidableEq

/-- The files by their keys, and the keys in the order they were put in. The last two fields are
ghosts: every insertion so far, and whether an update of the count saturated. -/
structure Cache where
  entries : AList fun _ : Bytes => Entry
  order : List Bytes
  used : Nat
  inserted : List Bytes
  clipped : Bool

def Entry.size (entry : Entry) : Nat := entry.bytes.length

/-- One call for a key, with what the file system answers: what it says of the file at its path, and
what loading the file gives. -/
structure EntryCall where
  key : Bytes
  current : Option Metadata
  loaded : Option (Bytes × Metadata)
  deriving DecidableEq

namespace Cache

def empty : Cache := ⟨∅, [], 0, [], false⟩

/-- Take a file out of the entries, if it is one of them. -/
def remove (cache : Cache) (key : Bytes) : Cache :=
  match cache.entries.lookup key with
  | none => cache
  | some entry =>
    { cache with
      entries := cache.entries.erase key
      used := cache.used - entry.size
      clipped := cache.clipped || cache.used < entry.size }

/-- The loop over the queue that takes out the oldest while too much is used. -/
def evictFrom (budget : Nat) : List Bytes → Cache → Cache
  | [], cache => { cache with order := [] }
  | oldest :: rest, cache =>
    if budget < cache.used then evictFrom budget rest (cache.remove oldest)
    else { cache with order := oldest :: rest }

def evictTo (cache : Cache) (budget : Nat) : Cache := evictFrom budget cache.order cache

/-- Put a file in, before anything is evicted for it. -/
def put (cache : Cache) (key : Bytes) (entry : Entry) : Cache where
  entries := cache.entries.insert key entry
  order := cache.order ++ [key]
  used := min (cache.used + entry.size) usizeMax
  inserted := cache.inserted ++ [key]
  clipped := cache.clipped || usizeMax < cache.used + entry.size

/-- Keep a file that is small enough. -/
def store (limits : CacheLimits) (cache : Cache) (key : Bytes) (entry : Entry) : Cache :=
  if entry.size ≤ limits.smallFileLimit.toNat then
    (cache.put key entry).evictTo limits.cacheBudget.toNat
  else cache

/-- Whether a file is still what its entry was made of. -/
def unchanged (entry : Entry) (current : Metadata) : Bool :=
  current.isFile && current.len = UInt64.ofNat entry.size && Modified.of current = entry.modified

section Calls

variable (fromPath : Bytes → Option Bytes) (limits : CacheLimits)

def load (call : EntryCall) (cache : Cache) : Option Entry × Cache :=
  match call.loaded with
  | none => (none, cache)
  | some (bytes, metadata) =>
    let entry := Entry.fresh fromPath call.key bytes metadata
    (some entry, cache.store limits call.key entry)

/-- The cached entry for a key, revalidated, or a fresh one. -/
def entry (call : EntryCall) (cache : Cache) : Option Entry × Cache :=
  match cache.entries.lookup call.key with
  | none => load fromPath limits call cache
  | some entry =>
    match call.current with
    | none => (none, cache)
    | some current =>
      if unchanged entry current then (some entry, cache)
      else load fromPath limits call (cache.remove call.key)

/-- The cache after some calls. -/
def after (calls : List EntryCall) : Cache :=
  calls.foldl (fun cache call => (entry fromPath limits call cache).2) empty

end Calls

/-! ### What is counted -/

variable {fromPath : Bytes → Option Bytes} {limits : CacheLimits} {cache : Cache} {key : Bytes}

variable {other : Bytes}

/-- The count is what the entries hold, and was never clipped. -/
structure Counted (cache : Cache) : Prop where
  used : cache.used = total Entry.size cache.entries
  unclipped : cache.clipped = false

theorem mem_remove : other ∈ (cache.remove key).entries ↔ other ≠ key ∧ other ∈ cache.entries := by
  unfold remove
  split
  · rename_i absent
    refine ⟨fun member => ⟨?_, member⟩, And.right⟩
    rintro rfl
    exact AList.lookup_eq_none.mp absent member
  · exact AList.mem_erase

theorem remove_order : (cache.remove key).order = cache.order := by
  unfold remove
  split <;> rfl

theorem remove_inserted : (cache.remove key).inserted = cache.inserted := by
  unfold remove
  split <;> rfl

theorem Counted.remove (counted : Counted cache) (key : Bytes) : Counted (cache.remove key) := by
  unfold Cache.remove
  split
  · exact counted
  · rename_i entry held
    have whole := @total_erase _ _ Entry.size _ _ _ _ held
    refine ⟨?_, ?_⟩
    · show cache.used - entry.size = total Entry.size (cache.entries.erase key)
      rw [counted.used, ← whole, Nat.add_sub_cancel]
    · show (cache.clipped || decide (cache.used < entry.size)) = false
      rw [counted.unclipped, counted.used, Bool.false_or]
      exact decide_eq_false (Nat.not_lt_of_le (size_le_total held))

/-- What is removed is not used any more. -/
theorem remove_used : (cache.remove key).used ≤ cache.used := by
  unfold Cache.remove
  split
  · exact Nat.le_refl _
  · exact Nat.sub_le _ _

theorem Counted.put {entry : Entry} (counted : Counted cache)
    (fresh : cache.entries.lookup key = none)
    (room : total Entry.size cache.entries + entry.size ≤ usizeMax) :
    Counted (cache.put key entry) := by
  refine ⟨?_, ?_⟩
  · show min (cache.used + entry.size) usizeMax =
      total Entry.size (cache.entries.insert key entry)
    rw [total_insert fresh, counted.used, Nat.min_eq_left room]
  · show (cache.clipped || decide (usizeMax < cache.used + entry.size)) = false
    rw [counted.unclipped, counted.used, Bool.false_or]
    exact decide_eq_false (Nat.not_lt_of_le room)

/-! ### Eviction -/

variable {budget : Nat} {order : List Bytes}

theorem evictFrom_inserted (order : List Bytes) (cache : Cache) :
    (evictFrom budget order cache).inserted = cache.inserted := by
  induction order generalizing cache with
  | nil => rfl
  | cons oldest rest inductionHypothesis =>
    unfold evictFrom
    split
    · rw [inductionHypothesis, remove_inserted]
    · rfl

/-- What stays in the queue is its end. -/
theorem evictFrom_suffix {budget : Nat} (order : List Bytes) (cache : Cache) :
    (evictFrom budget order cache).order <:+ order := by
  induction order generalizing cache with
  | nil => exact List.suffix_rfl
  | cons oldest rest inductionHypothesis =>
    unfold evictFrom
    split
    · exact (inductionHypothesis _).trans (List.suffix_cons oldest rest)
    · exact List.suffix_rfl

/-- If the queue names every file, eviction ends within the budget and the queue still does. -/
theorem Counted.evictFrom (counted : Counted cache) (listed : ∀ key ∈ cache.entries, key ∈ order) :
    Counted (evictFrom budget order cache) ∧ (evictFrom budget order cache).used ≤ budget ∧
      ∀ key ∈ (evictFrom budget order cache).entries, key ∈ (evictFrom budget order cache).order := by
  induction order generalizing cache with
  | nil =>
    have none_ : cache.used = 0 :=
      counted.used.trans (total_eq_zero fun key member => List.not_mem_nil (listed key member))
    refine ⟨⟨counted.used, counted.unclipped⟩, ?_, listed⟩
    show cache.used ≤ budget
    rw [none_]
    exact Nat.zero_le _
  | cons oldest rest inductionHypothesis =>
    unfold Cache.evictFrom
    split
    · refine inductionHypothesis (counted.remove oldest) fun key member => ?_
      obtain ⟨other, held⟩ := mem_remove.mp member
      exact (List.mem_cons.mp (listed key held)).resolve_left other
    · rename_i within
      exact ⟨⟨counted.used, counted.unclipped⟩, Nat.le_of_not_lt within, listed⟩

/-- If the queue names files that are cached, once each, it still does after eviction. -/
theorem evictFrom_cached (once : order.Nodup) (cached : ∀ key ∈ order, key ∈ cache.entries) :
    ∀ key ∈ (evictFrom budget order cache).order, key ∈ (evictFrom budget order cache).entries := by
  induction order generalizing cache with
  | nil => exact nofun
  | cons oldest rest inductionHypothesis =>
    obtain ⟨fresh, once⟩ := List.nodup_cons.mp once
    unfold evictFrom
    split
    · refine inductionHypothesis once fun key member => mem_remove.mpr ⟨?_, ?_⟩
      · rintro rfl
        exact fresh member
      · exact cached key (List.mem_cons_of_mem _ member)
    · exact cached

/-- What is evicted is the front of the queue, and leaves the entries. -/
theorem evictFrom_evicted {budget : Nat} (order : List Bytes) (cache : Cache) :
    ∃ evicted, order = evicted ++ (evictFrom budget order cache).order ∧
      ∀ key, key ∈ (evictFrom budget order cache).entries ↔ key ∉ evicted ∧ key ∈ cache.entries := by
  induction order generalizing cache with
  | nil => exact ⟨[], rfl, fun key => ⟨fun held => ⟨List.not_mem_nil, held⟩, And.right⟩⟩
  | cons oldest rest inductionHypothesis =>
    unfold evictFrom
    split
    · obtain ⟨evicted, whole, left⟩ := inductionHypothesis (cache.remove oldest)
      refine ⟨oldest :: evicted, congrArg (oldest :: ·) whole, fun key => ?_⟩
      rw [left, mem_remove, List.mem_cons, not_or]
      exact ⟨fun ⟨late, other, held⟩ => ⟨⟨other, late⟩, held⟩,
        fun ⟨⟨other, late⟩, held⟩ => ⟨late, other, held⟩⟩
    · exact ⟨[], rfl, fun key => ⟨fun held => ⟨List.not_mem_nil, held⟩, And.right⟩⟩

/-- A key behind all those that are cached is not reached. -/
theorem Counted.evictFrom_rest {budget : Nat} {front : List Bytes} (counted : Counted cache)
    (listed : ∀ key ∈ cache.entries, key ∈ front) (last : Bytes) :
    (Cache.evictFrom budget (front ++ [last]) cache).order ≠ [] := by
  induction front generalizing cache with
  | nil =>
    have none_ : cache.used = 0 :=
      counted.used.trans (total_eq_zero fun key member => List.not_mem_nil (listed key member))
    rw [List.nil_append, Cache.evictFrom, none_, if_neg (Nat.not_lt_zero _)]
    exact List.cons_ne_nil _ _
  | cons oldest rest inductionHypothesis =>
    rw [List.cons_append, Cache.evictFrom]
    split
    · refine inductionHypothesis (counted.remove oldest) fun key member => ?_
      obtain ⟨other, held⟩ := mem_remove.mp member
      exact (List.mem_cons.mp (listed key held)).resolve_left other
    · exact List.cons_ne_nil _ _

/-! ### One call -/

variable {call : EntryCall}

/-- The count is exact and within the budget, and the queue names every cached file. -/
structure Sound (limits : CacheLimits) (cache : Cache) : Prop extends Counted cache where
  bounded : cache.used ≤ limits.cacheBudget.toNat
  listed : ∀ key ∈ cache.entries, key ∈ cache.order

/-- The queue names the cached files and no others, once each, and they are the last ones that were
put in, in that order. -/
structure Exact (limits : CacheLimits) (cache : Cache) : Prop extends Sound limits cache where
  once : cache.order.Nodup
  cached : ∀ key ∈ cache.order, key ∈ cache.entries
  oldest : cache.order <:+ cache.inserted

/-- What is loaded is in memory beside what is cached. -/
def Room (cache : Cache) (call : EntryCall) : Prop :=
  ∀ bytes metadata, call.loaded = some (bytes, metadata) →
    total Entry.size cache.entries + bytes.length ≤ usizeMax

/-- A call finds a cached file changed. -/
def Stale (cache : Cache) (call : EntryCall) : Prop :=
  ∃ entry current, cache.entries.lookup call.key = some entry ∧ call.current = some current ∧
    unchanged entry current = false

/-- What a call does to the cache: nothing, or it loads, having taken out a file found changed. -/
theorem entry_cases (call : EntryCall) (cache : Cache) :
    (entry fromPath limits call cache).2 = cache ∧ ¬ Stale cache call ∨
      cache.entries.lookup call.key = none ∧ ¬ Stale cache call ∧
        entry fromPath limits call cache = load fromPath limits call cache ∨
      Stale cache call ∧
        entry fromPath limits call cache = load fromPath limits call (cache.remove call.key) := by
  unfold entry Stale
  cases held : cache.entries.lookup call.key with
  | none => exact .inr (.inl ⟨rfl, fun ⟨_, _, known, _⟩ => (nomatch known), rfl⟩)
  | some stored =>
    cases asked : call.current with
    | none => exact .inl ⟨rfl, fun ⟨_, _, _, known, _⟩ => nomatch known⟩
    | some current =>
      cases same : unchanged stored current with
      | true =>
        refine .inl ⟨by dsimp only; rw [same, if_pos rfl], ?_⟩
        rintro ⟨other, answer, known, given, stale⟩
        cases known
        cases given
        rw [same] at stale
        cases stale
      | false =>
        refine .inr (.inr ⟨⟨stored, current, rfl, rfl, same⟩, ?_⟩)
        dsimp only
        rw [same, if_neg Bool.false_ne_true]

theorem mem_put {entry : Entry} :
    other ∈ (cache.put key entry).entries ↔ other = key ∨ other ∈ cache.entries :=
  AList.mem_insert _

/-- The cache after a load: as it was, or with the file put in and the oldest evicted. -/
theorem load_cases (call : EntryCall) (cache : Cache) :
    (load fromPath limits call cache).2 = cache ∨
      ∃ bytes metadata, call.loaded = some (bytes, metadata) ∧
        (load fromPath limits call cache).2 =
          (cache.put call.key (Entry.fresh fromPath call.key bytes metadata)).evictTo
            limits.cacheBudget.toNat := by
  unfold load
  cases loaded : call.loaded with
  | none => exact .inl rfl
  | some answer =>
    obtain ⟨bytes, metadata⟩ := answer
    dsimp only
    unfold store
    split
    · exact .inr ⟨bytes, metadata, rfl, rfl⟩
    · exact .inl rfl

theorem Sound.load (sound : Sound limits cache) (fresh : cache.entries.lookup call.key = none)
    (room : Room cache call) : Sound limits (load fromPath limits call cache).2 := by
  rcases @load_cases fromPath limits call cache with same | ⟨bytes, metadata, loaded, same⟩
  · rw [same]
    exact sound
  · rw [same]
    have counted : Counted (cache.put call.key (Entry.fresh fromPath call.key bytes metadata)) :=
      sound.toCounted.put fresh (room bytes metadata loaded)
    obtain ⟨kept, within, listed⟩ := counted.evictFrom fun key member =>
      (mem_put.mp member).elim
        (fun here => List.mem_append_right _ (List.mem_singleton.mpr here))
        fun before => List.mem_append_left _ (sound.listed key before)
    exact ⟨kept, within, listed⟩

theorem Sound.remove (sound : Sound limits cache) (key : Bytes) :
    Sound limits (cache.remove key) := by
  refine ⟨sound.toCounted.remove key, remove_used.trans sound.bounded, ?_⟩
  intro other member
  rw [remove_order]
  exact sound.listed other (mem_remove.mp member).2

theorem lookup_remove : (cache.remove key).entries.lookup key = none := by
  refine AList.lookup_eq_none.mpr fun member => ?_
  exact (mem_remove.mp member).1 rfl

theorem Room.remove (room : Room cache call) (key : Bytes) : Room (cache.remove key) call := by
  intro bytes metadata loaded
  refine Nat.le_trans (Nat.add_le_add_right ?_ _) (room bytes metadata loaded)
  unfold Cache.remove
  split
  · exact Nat.le_refl _
  · rename_i entry held
    exact Nat.le.intro (total_erase held)

/-- Every call keeps the count. -/
theorem Sound.entry (sound : Sound limits cache) (room : Room cache call) :
    Sound limits (entry fromPath limits call cache).2 := by
  rcases @entry_cases fromPath limits call cache with ⟨same, -⟩ | ⟨fresh, -, same⟩ | ⟨-, same⟩
  · rw [same]
    exact sound
  · rw [same]
    exact sound.load fresh room
  · rw [same]
    exact (sound.remove call.key).load lookup_remove (room.remove call.key)

/-- A call that finds no file changed keeps the queue. -/
theorem Exact.entry (exact_ : Exact limits cache) (room : Room cache call)
    (steady : ¬ Stale cache call) : Exact limits (entry fromPath limits call cache).2 := by
  have sound : Sound limits (Cache.entry fromPath limits call cache).2 :=
    exact_.toSound.entry room
  rcases @entry_cases fromPath limits call cache with ⟨same, -⟩ | ⟨fresh, -, same⟩ | ⟨stale, -⟩
  · rw [same]
    exact exact_
  · rw [same] at sound ⊢
    rcases @load_cases fromPath limits call cache with still | ⟨bytes, metadata, loaded, put⟩
    · rw [still]
      exact exact_
    · rw [put] at sound ⊢
      have absent : call.key ∉ cache.order := fun member =>
        AList.lookup_eq_none.mp fresh (exact_.cached _ member)
      have once : (cache.order ++ [call.key]).Nodup :=
        List.nodup_append.mpr ⟨exact_.once, List.nodup_singleton _, fun key member other last =>
          fun same => absent (List.mem_singleton.mp last ▸ same ▸ member)⟩
      have suffix := @evictFrom_suffix limits.cacheBudget.toNat (cache.order ++ [call.key])
        (cache.put call.key (Entry.fresh fromPath call.key bytes metadata))
      refine ⟨sound, once.sublist suffix.sublist, ?_, ?_⟩
      · refine evictFrom_cached once fun key member => mem_put.mpr ?_
        rcases List.mem_append.mp member with before | here
        · exact .inr (exact_.cached key before)
        · exact .inl (List.mem_singleton.mp here)
      · show (evictFrom _ _ _).order <:+ (evictFrom _ _ _).inserted
        rw [evictFrom_inserted]
        obtain ⟨earlier, whole⟩ := exact_.oldest
        refine suffix.trans ⟨earlier, ?_⟩
        show earlier ++ (cache.order ++ [call.key]) = cache.inserted ++ [call.key]
        rw [← whole, List.append_assoc]
  · exact absurd stale steady

/-- A call that finds a file changed breaks the queue: the key of the file stays where it was. -/
theorem Exact.stale (exact_ : Exact limits cache) (room : Room cache call)
    (stale : Stale cache call) : ¬ Exact limits (Cache.entry fromPath limits call cache).2 := by
  obtain ⟨stored, -, held, -⟩ := id stale
  have cached : call.key ∈ cache.entries := by
    refine AList.lookup_isSome.mp ?_
    rw [held]
    rfl
  have listed := exact_.listed _ cached
  rcases @entry_cases fromPath limits call cache with ⟨-, steady⟩ | ⟨-, steady, -⟩ | ⟨-, same⟩
  · exact absurd stale steady
  · exact absurd stale steady
  intro after
  rw [same] at after
  rcases @load_cases fromPath limits call (cache.remove call.key) with
    still | ⟨bytes, metadata, loaded, put⟩
  · rw [still] at after
    have absent := AList.lookup_eq_none.mp (@lookup_remove cache call.key)
    exact absent (after.cached _ (remove_order.symm ▸ listed))
  rw [put] at after
  have counted : Counted ((cache.remove call.key).put call.key
      (Entry.fresh fromPath call.key bytes metadata)) :=
    (exact_.toCounted.remove call.key).put lookup_remove
      ((room.remove call.key) bytes metadata loaded)
  have known : ∀ key ∈ ((cache.remove call.key).put call.key
      (Entry.fresh fromPath call.key bytes metadata)).entries, key ∈ cache.order := by
    intro key member
    rcases mem_put.mp member with rfl | before
    · exact listed
    · exact exact_.listed key (mem_remove.mp before).2
  have rest := @Counted.evictFrom_rest _ limits.cacheBudget.toNat _ counted known call.key
  obtain ⟨evicted, whole, left⟩ := @evictFrom_evicted limits.cacheBudget.toNat
    (cache.order ++ [call.key])
    ((cache.remove call.key).put call.key (Entry.fresh fromPath call.key bytes metadata))
  unfold evictTo at after
  rw [show ((cache.remove call.key).put call.key
    (Entry.fresh fromPath call.key bytes metadata)).order = cache.order ++ [call.key] from
      congrArg (· ++ [call.key]) remove_order] at after
  revert after rest whole left
  generalize evictFrom limits.cacheBudget.toNat (cache.order ++ [call.key])
    ((cache.remove call.key).put call.key (Entry.fresh fromPath call.key bytes metadata)) = result
  intro after rest whole left
  rcases List.eq_nil_or_concat result.order with none_ | ⟨front, last, shape⟩
  · exact rest none_
  rw [List.concat_eq_append] at shape
  rw [shape, ← List.append_assoc] at whole
  obtain ⟨before, same⟩ := List.append_inj' whole rfl
  obtain rfl : call.key = last := (List.cons.inj same).1
  have late : call.key ∉ evicted :=
    ((left _).mp (after.cached _ (shape ▸ List.mem_append_right _ List.mem_cons_self))).1
  have early : call.key ∈ front := (List.mem_append.mp (before ▸ listed)).resolve_left late
  have once := after.once
  rw [shape, List.nodup_append] at once
  exact once.2.2 _ early _ List.mem_cons_self rfl

/-! ### Runs -/

/-- What a call answers for a cached file is the entry, the file being as long and as old as the
entry, or what it loaded. -/
def Answered (fromPath : Bytes → Option Bytes) (limits : CacheLimits) (cache : Cache) : Prop :=
  ∀ call stored found, cache.entries.lookup call.key = some stored →
    (entry fromPath limits call cache).1 = some found →
    (∃ current, call.current = some current ∧ current.isFile = true ∧
      current.len.toNat = stored.bytes.length ∧ Modified.of current = stored.modified ∧
      found = stored) ∨
    ∃ bytes metadata, call.loaded = some (bytes, metadata) ∧
      found = Entry.fresh fromPath call.key bytes metadata

theorem Sound.answered (sound : Sound limits cache) : Answered fromPath limits cache := by
  intro call stored found held answer
  unfold Cache.entry at answer
  rw [held] at answer
  dsimp only at answer
  cases asked : call.current with
  | none =>
    rw [asked] at answer
    cases answer
  | some current =>
    rw [asked] at answer
    dsimp only at answer
    split at answer
    · rename_i same
      cases answer
      unfold unchanged at same
      simp only [Bool.and_eq_true, decide_eq_true_eq] at same
      obtain ⟨⟨isFile, length⟩, modified⟩ := same
      have small : stored.size < 2 ^ 64 := by
        have within := (size_le_total held : Entry.size stored ≤ _).trans
          (sound.used ▸ sound.bounded)
        exact Nat.lt_of_le_of_lt within limits.cacheBudget.toNat_lt
      refine .inl ⟨current, rfl, isFile, ?_, modified, rfl⟩
      rw [length, UInt64.toNat_ofNat']
      exact Nat.mod_eq_of_lt small
    · unfold Cache.load at answer
      cases loaded : call.loaded with
      | none =>
        rw [loaded] at answer
        cases answer
      | some given =>
        rw [loaded] at answer
        obtain ⟨bytes, metadata⟩ := given
        cases answer
        exact .inr ⟨bytes, metadata, rfl, rfl⟩

theorem after_concat (calls : List EntryCall) (call : EntryCall) :
    after fromPath limits (calls ++ [call]) =
      (entry fromPath limits call (after fromPath limits calls)).2 := List.foldl_concat ..

theorem sound_empty : Sound limits empty where
  used := total_empty.symm
  unclipped := rfl
  bounded := Nat.zero_le _
  listed := fun _ member => absurd member (AList.notMem_empty _)

theorem exact_empty : Exact limits empty where
  toSound := sound_empty
  once := List.nodup_nil
  cached := nofun
  oldest := List.suffix_rfl

/-- In every run of calls the count is exact, never clipped and within the budget, and what is
answered is current. The queue names the cached files, once each and oldest first, in every state of
the run exactly if no call of it finds a cached file changed. -/
theorem cache_exact (fromPath : Bytes → Option Bytes) (limits : CacheLimits)
    (calls : List EntryCall)
    (room : ∀ front call, front ++ [call] <+: calls → Room (after fromPath limits front) call) :
    (∀ front, front <+: calls → Sound limits (after fromPath limits front) ∧
      Answered fromPath limits (after fromPath limits front)) ∧
    ((∀ front, front <+: calls → Exact limits (after fromPath limits front) ∧
        Answered fromPath limits (after fromPath limits front)) ↔
      ∀ front call, front ++ [call] <+: calls → ¬ Stale (after fromPath limits front) call) := by
  have sound : ∀ front, front <+: calls → Sound limits (after fromPath limits front) := by
    intro front part
    induction front using List.reverseRecOn with
    | nil => exact sound_empty
    | append_singleton front call inductionHypothesis =>
      rw [after_concat]
      exact (inductionHypothesis ((List.prefix_append _ _).trans part)).entry
        (room front call part)
  refine ⟨fun front part => ⟨sound front part, (sound front part).answered⟩, ?_, ?_⟩
  · intro kept front call part stale
    have next := (kept _ part).1
    rw [after_concat] at next
    exact (kept front ((List.prefix_append _ _).trans part)).1.stale (room front call part) stale
      next
  · intro steady front part
    refine ⟨?_, (sound front part).answered⟩
    induction front using List.reverseRecOn with
    | nil => exact exact_empty
    | append_singleton front call inductionHypothesis =>
      rw [after_concat]
      exact (inductionHypothesis ((List.prefix_append _ _).trans part)).entry
        (room front call part) (steady front call part)

/-! ### A changed file -/

/-- A file is cached, and the next call for it finds it changed and cannot load it. -/
def changedFile : List EntryCall :=
  [⟨ascii "a", none, some (ascii "x", ⟨true, 1, some (5, 0)⟩)⟩,
    ⟨ascii "a", some ⟨true, 1, some (6, 0)⟩, none⟩]

theorem cache_exact_once :
    Exact ⟨10, 10⟩ (after (fun _ => none) ⟨10, 10⟩ [⟨ascii "a", none,
      some (ascii "x", ⟨true, 1, some (5, 0)⟩)⟩]) := by
  have first : ∀ (front : List EntryCall) (call single : EntryCall),
      front ++ [call] <+: [single] → front = [] ∧ call = single := by
    intro front call single part
    have short := part.length_le
    rw [List.length_append, List.length_singleton, List.length_singleton] at short
    obtain rfl := List.length_eq_zero_iff.mp (show front.length = 0 by omega)
    exact ⟨rfl, (List.cons_prefix_cons.mp part).1⟩
  refine (((cache_exact (fun _ => none) ⟨10, 10⟩ _ ?_).2.mpr ?_) _ List.prefix_rfl).1
  · intro front call part bytes metadata loaded
    obtain ⟨rfl, rfl⟩ := first _ _ _ part
    cases loaded
    decide
  · rintro front call part ⟨stored, current, held, asked, -⟩
    obtain ⟨rfl, rfl⟩ := first _ _ _ part
    cases asked

theorem cache_keeps_changed :
    ¬ ∀ front, front <+: changedFile → Exact ⟨10, 10⟩ (after (fun _ => none) ⟨10, 10⟩ front) := by
  intro claimed
  have last := claimed changedFile List.prefix_rfl
  have order : (after (fun _ => none) ⟨10, 10⟩ changedFile).order = [ascii "a"] := by
    decide
  have entries : (after (fun _ => none) ⟨10, 10⟩ changedFile).entries.lookup (ascii "a") = none := by
    decide
  refine AList.lookup_eq_none.mp entries (last.cached _ ?_)
  rw [order]
  exact List.mem_cons_self

end Cache

end ZeroServer.Static
