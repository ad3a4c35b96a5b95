/-
This file models how a pull target binds the thread that polls it to every worker index it serves,
with the target's queue locked but the indexes shared with other threads, and proves that a poll
binds every index or none as long as no other thread binds one of them between the poll's look at
the index and its own turn to bind it.
-/

import ZeroServer.Lib.Edits

namespace ZeroServer.Host

open Lib

/-! ### The targets of a process -/

/-- How far a poll is that holds its target's queue: it has looked at some indexes and has others
to look at, it has some left to bind, or it reports. -/
inductive Stage where
  | start
  | checking (seen rest : List Nat)
  | binding (rest : List Nat)
  | returned (ok : Bool)
  deriving DecidableEq

/-- A poll inside `bind`: the thread, how far it is, and the indexes it bound that were free. -/
structure Call where
  token : Nat
  stage : Stage := .start
  fresh : List Nat := []
  deriving DecidableEq

/-- A pull target: the indexes it serves, whether it is detached, the thread it recorded, and the
poll that holds its queue. -/
structure PullTarget where
  workers : List Nat
  gone : Bool := false
  bound : Nat := 0
  call : Option Call := none
  deriving DecidableEq

/-- What is attached to a worker index. -/
inductive Attached where
  | pull (target : Nat)
  | own
  deriving DecidableEq

/-- The targets made so far, what is attached to an index, and the thread bound to it, 0 for
none. -/
structure Targets where
  pulls : List PullTarget := []
  attached : Nat → Option Attached := fun _ => none
  bound : Nat → Nat := fun _ => 0

namespace Targets

variable (targets : Targets)

def setBound (index token : Nat) : Targets :=
  { targets with bound := fun other => if other = index then token else targets.bound other }

def setAttached (indexes : List Nat) (attached : Option Attached) : Targets :=
  { targets with
    attached := fun other => if other ∈ indexes then attached else targets.attached other }

/-- Bind a thread to an index, if no thread is bound yet: whether it is the bound thread now. -/
def bindThread (index token : Nat) : Bool × Targets :=
  if targets.bound index = 0 then (token != 0, targets.setBound index token)
  else (targets.bound index == token, targets)

def setCall (target : Nat) (call : Option Call) : Targets :=
  { targets with pulls := targets.pulls.modify target fun pull => { pull with call := call } }

/-- The next step of a poll inside `bind`. -/
def stepCall (target : Nat) (pull : PullTarget) (call : Call) : Targets :=
  match call.stage with
  | .start =>
    let stage : Stage :=
      if pull.bound = 0 then .checking [] pull.workers
      else .returned (pull.bound == call.token)
    targets.setCall target (some { call with stage := stage })
  | .checking seen (index :: rest) =>
    let stage : Stage :=
      if targets.bound index ≠ 0 ∧ targets.bound index ≠ call.token then .returned false
      else .checking (seen ++ [index]) rest
    targets.setCall target (some { call with stage := stage })
  | .checking _ [] => targets.setCall target (some { call with stage := .binding pull.workers })
  | .binding (index :: rest) =>
    let done := targets.bindThread index call.token
    let fresh := if targets.bound index = 0 then call.fresh ++ [index] else call.fresh
    let stage : Stage := if done.1 then .binding rest else .returned false
    done.2.setCall target (some { call with stage := stage, fresh := fresh })
  | .binding [] =>
    { targets with pulls := targets.pulls.modify target fun pull =>
        { pull with bound := call.token, call := some { call with stage := .returned true } } }
  | .returned _ => targets.setCall target none

end Targets

/-- What happens next. -/
inductive TargetMove where
  | attachPull (workers : List Nat)
  | attachOwn (worker : Nat)
  | poll (target token : Nat)
  | run (target : Nat)
  | stop (target : Nat)
  | release (worker : Nat)
  | bindThread (worker token : Nat)
  deriving DecidableEq

/-- One move. A poll and a stop wait for the target's queue, and an index lets go of a pull target,
and unbinds its thread, only once the target is stopped. -/
def Targets.step (targets : Targets) : TargetMove → Targets
  | .attachPull workers =>
    if workers.all fun index => (targets.attached index).isNone then
      { targets.setAttached workers (some (.pull targets.pulls.length)) with
        pulls := targets.pulls ++ [{ workers := workers }] }
    else targets
  | .attachOwn worker =>
    if (targets.attached worker).isNone then targets.setAttached [worker] (some .own) else targets
  | .poll target token =>
    match targets.pulls[target]? with
    | none => targets
    | some pull =>
      if pull.call.isNone && !pull.gone && token != 0 then
        targets.setCall target (some { token := token })
      else targets
  | .run target =>
    match targets.pulls[target]? with
    | none => targets
    | some pull =>
      match pull.call with
      | none => targets
      | some call => targets.stepCall target pull call
  | .stop target =>
    match targets.pulls[target]? with
    | none => targets
    | some pull =>
      if pull.call.isNone then
        { targets with pulls := targets.pulls.modify target fun pull => { pull with gone := true } }
      else targets
  | .release worker =>
    let stopped : Bool :=
      match targets.attached worker with
      | some (.pull target) => (targets.pulls[target]?).all PullTarget.gone
      | _ => true
    if stopped then (targets.setAttached [worker] none).setBound worker 0 else targets
  | .bindThread worker token => (targets.bindThread worker token).2

/-- The indexes a poll has seen free, or its own, and has still to bind. -/
def Call.awaits (call : Call) : List Nat :=
  match call.stage with
  | .checking seen _ => seen
  | .binding rest => rest
  | _ => []

/-- A thread binds a free index that another thread's poll has seen and has still to bind. -/
def Targets.disturbs (targets : Targets) : TargetMove → Bool
  | .bindThread worker token =>
    targets.bound worker = 0 && targets.pulls.any fun pull => pull.call.any fun call =>
      call.token != token && call.awaits.contains worker
  | _ => false

/-- No move of a run disturbs a poll. -/
def Undisturbed : Targets → List TargetMove → Prop
  | _, [] => True
  | targets, move :: moves => targets.disturbs move = false ∧ Undisturbed (targets.step move) moves

def Targets.run (moves : List TargetMove) : Targets := moves.foldl Targets.step {}

/-! ### What holds between two moves -/

/-- What is known at a stage of a poll: what it has seen is free or its own, and what it has bound
is its own. -/
def Stage.Sound (bound : Nat → Nat) (pull : PullTarget) (call : Call) : Stage → Prop
  | .start => call.fresh = []
  | .checking seen rest => pull.bound = 0 ∧ call.fresh = [] ∧ pull.workers = seen ++ rest ∧
      ∀ index ∈ seen, bound index = 0 ∨ bound index = call.token
  | .binding rest => pull.bound = 0 ∧ rest ⊆ pull.workers ∧
      (∀ index ∈ rest, bound index = 0 ∨ bound index = call.token) ∧
      ∀ index ∈ pull.workers, index ∈ rest ∨ bound index = call.token
  | .returned ok => if ok then pull.bound = call.token else call.fresh = []

structure Targets.Sound (targets : Targets) : Prop where
  attached : ∀ (target : Nat) (pull : PullTarget), targets.pulls[target]? = some pull →
    pull.gone = false → ∀ index ∈ pull.workers, targets.attached index = some (.pull target)
  recorded : ∀ (target : Nat) (pull : PullTarget), targets.pulls[target]? = some pull →
    pull.gone = false → pull.bound ≠ 0 → ∀ index ∈ pull.workers, targets.bound index = pull.bound
  called : ∀ (target : Nat) (pull : PullTarget), targets.pulls[target]? = some pull →
    ∀ call, pull.call = some call →
      pull.gone = false ∧ call.token ≠ 0 ∧ call.stage.Sound targets.bound pull call

namespace Targets

variable {targets : Targets}

/-- A poll of a sound table moves on to a sound stage. -/
theorem Sound.setCall (sound : targets.Sound) {target : Nat} {call : Option Call}
    (fine : ∀ pull, targets.pulls[target]? = some pull → ∀ next, call = some next →
      pull.gone = false ∧ next.token ≠ 0 ∧ next.stage.Sound targets.bound pull next) :
    (targets.setCall target call).Sound := by
  refine ⟨fun place pull found => ?_, fun place pull found => ?_, fun place pull found => ?_⟩
  · obtain ⟨before, there, rfl⟩ := getElem?_modify_cases found
    have known := sound.attached place before there
    split <;> exact known
  · obtain ⟨before, there, rfl⟩ := getElem?_modify_cases found
    have known := sound.recorded place before there
    split <;> exact known
  · obtain ⟨before, there, rfl⟩ := getElem?_modify_cases found
    split
    · rename_i same
      subst same
      intro next made
      obtain ⟨here, token, stage⟩ := fine before there next made
      refine ⟨here, token, ?_⟩
      cases at_ : next.stage with
      | start | checking _ _ | binding _ | returned _ =>
        rw [at_] at stage
        exact stage
    · exact sound.called place before there

variable {pull : PullTarget} {call : Call}

theorem Stage.Sound.awaits {bound : Nat → Nat} (sound : call.stage.Sound bound pull call) :
    call.awaits ⊆ pull.workers := by
  unfold Call.awaits
  unfold Stage.Sound at sound
  cases stage : call.stage with
  | checking seen rest =>
    rw [stage] at sound
    rw [sound.2.2.1]
    exact List.subset_append_left _ _
  | binding rest =>
    rw [stage] at sound
    exact sound.2.1
  | start | returned ok => exact List.nil_subset _

/-- Binding a free index keeps every stage but that of another thread's poll that waits for it. -/
theorem Stage.Sound.bind {bound : Nat → Nat} {pull : PullTarget} {call : Call}
    (sound : call.stage.Sound bound pull call) (some_ : call.token ≠ 0) {index token : Nat}
    (free : bound index = 0) (apart : token = call.token ∨ index ∉ call.awaits) :
    call.stage.Sound (fun other => if other = index then token else bound other) pull call := by
  have mine : ∀ other, other ∈ call.awaits → bound other = 0 ∨ bound other = call.token →
      (if other = index then token else bound other) = 0 ∨
        (if other = index then token else bound other) = call.token := by
    intro other waits known
    by_cases same : other = index
    · rw [if_pos same]
      exact .inr (apart.resolve_right fun absent => absent (same ▸ waits))
    · rw [if_neg same]
      exact known
  unfold Call.awaits at mine
  unfold Stage.Sound at sound ⊢
  cases stage : call.stage with
  | start =>
    rw [stage] at sound
    exact sound
  | checking seen rest =>
    rw [stage] at sound mine
    exact ⟨sound.1, sound.2.1, sound.2.2.1,
      fun other member => mine other member (sound.2.2.2 other member)⟩
  | binding rest =>
    rw [stage] at sound mine
    refine ⟨sound.1, sound.2.1, fun other member => mine other member (sound.2.2.1 other member),
      fun other member => ?_⟩
    rcases sound.2.2.2 other member with left | done
    · exact .inl left
    · refine .inr ?_
      dsimp only
      rw [if_neg]
      · exact done
      · rintro rfl
        exact some_ (done.symm.trans free)
  | returned ok =>
    rw [stage] at sound
    exact sound

theorem Stage.Sound.congr {bound next : Nat → Nat} (sound : call.stage.Sound bound pull call)
    (same : ∀ index ∈ pull.workers, next index = bound index) :
    call.stage.Sound next pull call := by
  have waits := Stage.Sound.awaits sound
  unfold Call.awaits at waits
  unfold Stage.Sound at sound ⊢
  cases stage : call.stage with
  | start | returned ok =>
    rw [stage] at sound
    exact sound
  | checking seen rest =>
    rw [stage] at sound waits
    refine ⟨sound.1, sound.2.1, sound.2.2.1, fun index member => ?_⟩
    rw [same index (waits member)]
    exact sound.2.2.2 index member
  | binding rest =>
    rw [stage] at sound waits
    refine ⟨sound.1, sound.2.1, fun index member => ?_, fun index member => ?_⟩
    · rw [same index (waits member)]
      exact sound.2.2.1 index member
    · rw [same index member]
      exact sound.2.2.2 index member

theorem Sound.setBound (sound : targets.Sound) {index token : Nat} (free : targets.bound index = 0)
    (apart : ∀ (target : Nat) (pull : PullTarget), targets.pulls[target]? = some pull →
      index ∈ pull.workers → ∀ call, pull.call = some call →
        token = call.token ∨ index ∉ call.awaits) : (targets.setBound index token).Sound := by
  refine ⟨sound.attached, fun target pull found here some_ other member => ?_,
    fun target pull found call made => ?_⟩
  · have known := sound.recorded target pull found here some_ other member
    change (if other = index then token else targets.bound other) = pull.bound
    rw [if_neg]
    · exact known
    · rintro rfl
      exact some_ (known.symm.trans free)
  · obtain ⟨here, some_, stage⟩ := sound.called target pull found call made
    refine ⟨here, some_, Stage.Sound.bind stage some_ free ?_⟩
    by_cases served : index ∈ pull.workers
    · exact apart target pull found served call made
    · exact .inr fun waits => served (Stage.Sound.awaits stage waits)

theorem bindThread_other {index token : Nat} (free : targets.bound index ≠ 0) :
    targets.bindThread index token = (targets.bound index == token, targets) := if_neg free

theorem bindThread_free {index token : Nat} (free : targets.bound index = 0) :
    targets.bindThread index token = (token != 0, targets.setBound index token) := if_pos free

/-- A step of a poll. -/
theorem Sound.stepCall (sound : targets.Sound) {target : Nat}
    (found : targets.pulls[target]? = some pull) (made : pull.call = some call) :
    (targets.stepCall target pull call).Sound := by
  obtain ⟨here, some_, known⟩ := sound.called target pull found call made
  unfold Targets.stepCall
  unfold Stage.Sound at known
  have next : ∀ next : Call, next.token = call.token →
      next.stage.Sound targets.bound pull next → (targets.setCall target (some next)).Sound := by
    intro next token fine
    refine sound.setCall fun other there made' => ?_
    rw [found] at there
    cases there
    rintro ⟨⟩
    exact ⟨here, token ▸ some_, fine⟩
  cases stage : call.stage with
  | start =>
    rw [stage] at known
    dsimp only
    split
    · rename_i free
      exact next _ rfl ⟨free, known, rfl, nofun⟩
    · refine next _ rfl ?_
      unfold Stage.Sound
      dsimp only
      split
      · rename_i same
        exact eq_of_beq same
      · exact known
  | checking seen rest =>
    rw [stage] at known
    obtain ⟨free, fresh, parts, mine⟩ := known
    cases rest with
    | nil =>
      rw [List.append_nil] at parts
      refine next _ rfl ⟨free, List.Subset.refl _, ?_, fun index member => .inl member⟩
      rw [parts]
      exact mine
    | cons index rest =>
      dsimp only
      split
      · exact next _ rfl fresh
      · rename_i ours
        have moved : pull.workers = (seen ++ [index]) ++ rest := by
          rw [parts, List.append_assoc]
          rfl
        refine next _ rfl ⟨free, fresh, moved, fun other member => ?_⟩
        rcases List.mem_append.mp member with old | new
        · exact mine other old
        · rw [List.mem_singleton.mp new]
          by_cases zero : targets.bound index = 0
          · exact .inl zero
          · exact .inr (not_not.mp fun other => ours ⟨zero, other⟩)
  | binding rest =>
    rw [stage] at known
    obtain ⟨free, inside, mine, done⟩ := known
    cases rest with
    | nil =>
      have bound : ∀ index ∈ pull.workers, targets.bound index = call.token :=
        fun index member => (done index member).resolve_left List.not_mem_nil
      refine ⟨fun place other there => ?_, fun place other there => ?_, fun place other there => ?_⟩
      · obtain ⟨before, was, rfl⟩ := getElem?_modify_cases there
        have kept := sound.attached place before was
        split <;> exact kept
      · obtain ⟨before, was, rfl⟩ := getElem?_modify_cases there
        split
        · rename_i same
          subst same
          rw [found] at was
          cases was
          exact fun _ _ => bound
        · exact sound.recorded place before was
      · obtain ⟨before, was, rfl⟩ := getElem?_modify_cases there
        split
        · rename_i same
          subst same
          rw [found] at was
          cases was
          rintro _ ⟨⟩
          exact ⟨here, some_, rfl⟩
        · exact sound.called place before was
    | cons index rest =>
      have served := inside List.mem_cons_self
      have others : ∀ other ∈ rest, targets.bound other = 0 ∨ targets.bound other = call.token :=
        fun other member => mine other (List.mem_cons_of_mem _ member)
      by_cases zero : targets.bound index = 0
      · have ours : ∀ (place : Nat) (other : PullTarget), targets.pulls[place]? = some other →
            index ∈ other.workers → ∀ held, other.call = some held →
              call.token = held.token ∨ index ∉ held.awaits := by
          intro place other there member held held'
          have open_ := (sound.called place other there held held').1
          have attached := sound.attached target pull found here index served
          rw [sound.attached place other there open_ index member] at attached
          cases attached
          rw [found] at there
          cases there
          rw [made] at held'
          cases held'
          exact .inl rfl
        have bound := sound.setBound zero ours
        dsimp only
        rw [bindThread_free zero, if_pos zero]
        refine bound.setCall fun other there => ?_
        have there : targets.pulls[target]? = some other := there
        rw [found] at there
        cases there
        rintro _ ⟨⟩
        have own : (call.token != 0) = true := bne_iff_ne.mpr some_
        refine ⟨here, some_, ?_⟩
        dsimp only
        rw [own, if_pos rfl]
        refine ⟨free, List.Subset.trans (List.subset_cons_self _ _) inside, fun other member => ?_,
          fun other member => ?_⟩
        · change (if other = index then _ else _) = 0 ∨ (if other = index then _ else _) = _
          split
          · exact .inr rfl
          · exact others other member
        · change other ∈ rest ∨ (if other = index then _ else _) = _
          split
          · exact .inr rfl
          · rename_i apart
            rcases done other member with left | bound
            · exact .inl ((List.mem_cons.mp left).resolve_left apart)
            · exact .inr bound
      · have own := (mine index List.mem_cons_self).resolve_left zero
        dsimp only
        rw [bindThread_other zero, if_neg zero, own, beq_self_eq_true]
        refine next _ rfl ⟨free, List.Subset.trans (List.subset_cons_self _ _) inside, others,
          fun other member => ?_⟩
        rcases done other member with left | bound
        · rcases List.mem_cons.mp left with rfl | left
          · exact .inr own
          · exact .inl left
        · exact .inr bound
  | returned ok =>
    exact sound.setCall fun _ _ _ => nofun

/-- A move that disturbs no poll. -/
theorem Sound.step (sound : targets.Sound) {move : TargetMove}
    (quiet : targets.disturbs move = false) : (targets.step move).Sound := by
  cases move with
  | attachPull workers =>
    unfold Targets.step
    dsimp only
    split
    · rename_i free
      have apart : ∀ (target : Nat) (pull : PullTarget), targets.pulls[target]? = some pull →
          pull.gone = false → ∀ index ∈ pull.workers, index ∉ workers := by
        intro target pull found here index member inside
        have none_ := List.all_eq_true.mp free index inside
        rw [sound.attached target pull found here index member] at none_
        cases none_
      refine ⟨fun target pull found here index member => ?_, fun target pull found => ?_,
        fun target pull found => ?_⟩
      · change (if index ∈ workers then _ else _) = _
        rcases getElem?_concat found with old | ⟨rfl, rfl⟩
        · rw [if_neg (apart target pull old here index member)]
          exact sound.attached target pull old here index member
        · exact if_pos member
      · rcases getElem?_concat found with old | ⟨rfl, rfl⟩
        · exact sound.recorded target pull old
        · exact fun _ some_ => absurd rfl some_
      · rcases getElem?_concat found with old | ⟨rfl, rfl⟩
        · exact sound.called target pull old
        · exact fun _ => nofun
    · exact sound
  | attachOwn worker =>
    unfold Targets.step
    dsimp only
    split
    · rename_i free
      refine ⟨fun target pull found here index member => ?_, sound.recorded, sound.called⟩
      have attached := sound.attached target pull found here index member
      change (if index ∈ [worker] then _ else _) = _
      rw [if_neg]
      · exact attached
      · intro same
        rw [List.mem_singleton.mp same] at attached
        rw [attached] at free
        cases free
    · exact sound
  | poll target token =>
    unfold Targets.step
    dsimp only
    split
    · exact sound
    · rename_i pull found
      split
      · rename_i fits
        rw [Bool.and_eq_true, Bool.and_eq_true, bne_iff_ne] at fits
        refine sound.setCall fun other there => ?_
        rw [found] at there
        cases there
        rintro _ ⟨⟩
        exact ⟨(Bool.not_eq_true' _).mp fits.1.2, fits.2, rfl⟩
      · exact sound
  | run target =>
    unfold Targets.step
    dsimp only
    split
    · exact sound
    · rename_i pull found
      split
      · exact sound
      · rename_i call made
        exact sound.stepCall found made
  | stop target =>
    unfold Targets.step
    dsimp only
    split
    · exact sound
    · rename_i pull found
      split
      · rename_i idle
        refine ⟨fun place other there => ?_, fun place other there => ?_,
          fun place other there => ?_⟩
        · obtain ⟨before, was, rfl⟩ := getElem?_modify_cases there
          split
          · exact nofun
          · exact sound.attached place before was
        · obtain ⟨before, was, rfl⟩ := getElem?_modify_cases there
          split
          · exact nofun
          · exact sound.recorded place before was
        · obtain ⟨before, was, rfl⟩ := getElem?_modify_cases there
          split
          · rename_i same
            subst same
            rw [found] at was
            cases was
            intro call made
            rw [show pull.call = some call from made] at idle
            cases idle
          · exact sound.called place before was
      · exact sound
  | release worker =>
    unfold Targets.step
    dsimp only
    generalize stops : (match targets.attached worker with
      | some (.pull target) => (targets.pulls[target]?).all PullTarget.gone
      | _ => true) = stopped
    cases stopped with
    | false => exact sound
    | true =>
      have apart : ∀ (target : Nat) (pull : PullTarget), targets.pulls[target]? = some pull →
          pull.gone = false → worker ∉ pull.workers := by
        intro target pull found here member
        rw [sound.attached target pull found here worker member] at stops
        dsimp only at stops
        rw [found, Option.all_some, here] at stops
        cases stops
      refine ⟨fun target pull found here index member => ?_,
        fun target pull found here some_ index member => ?_, fun target pull found call made => ?_⟩
      · change (if index ∈ [worker] then _ else _) = _
        rw [if_neg]
        · exact sound.attached target pull found here index member
        · exact fun same => apart target pull found here (List.mem_singleton.mp same ▸ member)
      · change (if index = worker then _ else _) = _
        rw [if_neg]
        · exact sound.recorded target pull found here some_ index member
        · exact fun same => apart target pull found here (same ▸ member)
      · obtain ⟨here, some_, stage⟩ := sound.called target pull found call made
        refine ⟨here, some_, Stage.Sound.congr stage fun index member => if_neg ?_⟩
        exact fun same => apart target pull found here (same ▸ member)
  | bindThread worker token =>
    unfold Targets.step
    dsimp only
    by_cases free : targets.bound worker = 0
    · rw [bindThread_free free]
      refine sound.setBound free fun target pull found _ call made => ?_
      unfold disturbs at quiet
      dsimp only at quiet
      rw [decide_eq_true free, Bool.true_and] at quiet
      have calm := List.any_eq_false.mp quiet pull (List.mem_of_getElem? found)
      rw [made, Option.any_some, Bool.and_eq_true, bne_iff_ne, List.contains_iff_mem] at calm
      by_cases same : call.token = token
      · exact .inl same.symm
      · exact .inr fun waits => calm ⟨same, waits⟩
    · rw [bindThread_other free]
      exact sound

theorem Sound.run (sound : targets.Sound) {moves : List TargetMove}
    (undisturbed : Undisturbed targets moves) : (moves.foldl Targets.step targets).Sound := by
  induction moves generalizing targets with
  | nil => exact sound
  | cons move moves inductionHypothesis =>
    obtain ⟨quiet, rest⟩ := undisturbed
    exact inductionHypothesis (sound.step quiet) rest

/-- A thread that is bound to an index stays bound until the index unbinds. -/
theorem step_bound (targets : Targets) (move : TargetMove) (index : Nat)
    (some_ : targets.bound index ≠ 0) :
    (targets.step move).bound index = targets.bound index ∨
      (targets.step move).bound index = 0 := by
  have binds : ∀ other token,
      (targets.bindThread other token).2.bound index = targets.bound index := by
    intro other token
    unfold bindThread
    split
    · rename_i free
      refine if_neg ?_
      rintro rfl
      exact some_ free
    · rfl
  cases move with
  | attachPull workers =>
    unfold Targets.step
    dsimp only
    split <;> exact .inl rfl
  | attachOwn worker =>
    unfold Targets.step
    dsimp only
    split <;> exact .inl rfl
  | poll target token =>
    unfold Targets.step
    dsimp only
    split
    · exact .inl rfl
    · split <;> exact .inl rfl
  | run target =>
    unfold Targets.step
    dsimp only
    split
    · exact .inl rfl
    · split
      · exact .inl rfl
      · rename_i call made
        unfold Targets.stepCall
        split
        · exact .inl rfl
        · exact .inl rfl
        · exact .inl rfl
        · exact .inl (binds _ _)
        · exact .inl rfl
        · exact .inl rfl
  | stop target =>
    unfold Targets.step
    dsimp only
    split
    · exact .inl rfl
    · split <;> exact .inl rfl
  | release worker =>
    unfold Targets.step
    dsimp only
    generalize (match targets.attached worker with
      | some (.pull target) => (targets.pulls[target]?).all PullTarget.gone
      | _ => true) = stopped
    cases stopped with
    | false => exact .inl rfl
    | true =>
      by_cases same : index = worker
      · exact .inr (if_pos same)
      · exact .inl (if_neg same)
  | bindThread worker token => exact .inl (binds worker token)

end Targets

/-! ### All indexes or none -/

/-- What a poll that is done with binding reports is so: it is bound to every index of its target,
or it newly bound none. -/
def BindsAllOrNone (targets : Targets) : Prop :=
  ∀ (target : Nat) (pull : PullTarget) (call : Call), targets.pulls[target]? = some pull →
    pull.call = some call →
      (call.stage = .returned true → ∀ index ∈ pull.workers, targets.bound index = call.token) ∧
      (call.stage = .returned false → call.fresh = [])

/-- In every run in which no thread binds an index that another thread's poll has seen and has still
to bind, every poll binds all its indexes or none, and no index goes from one thread to another. -/
theorem poll_binds_all_or_none {moves : List TargetMove} (undisturbed : Undisturbed {} moves) :
    BindsAllOrNone (Targets.run moves) ∧ ∀ move index, (Targets.run moves).bound index ≠ 0 →
      ((Targets.run moves).step move).bound index = (Targets.run moves).bound index ∨
        ((Targets.run moves).step move).bound index = 0 := by
  have start : Targets.Sound {} := ⟨nofun, nofun, nofun⟩
  have sound := start.run undisturbed
  refine ⟨fun target pull call found made => ?_,
    fun move index some_ => Targets.step_bound _ move index some_⟩
  obtain ⟨here, token, stage⟩ := sound.called target pull found call made
  refine ⟨fun done index member => ?_, fun done => ?_⟩
  · rw [done] at stage
    have recorded : pull.bound = call.token := stage
    rw [← recorded]
    exact sound.recorded target pull found here (recorded ▸ token) index member
  · rw [done] at stage
    exact stage

/-- A poll of two indexes that nothing disturbs. -/
def pairPoll : List TargetMove := [.attachPull [0, 1], .poll 0 5, .run 0, .run 0, .run 0, .run 0,
  .run 0, .run 0, .run 0]

theorem poll_binds_all_or_none_pair :
    BindsAllOrNone (Targets.run pairPoll) ∧ ∀ move index,
      (Targets.run pairPoll).bound index ≠ 0 →
        ((Targets.run pairPoll).step move).bound index = (Targets.run pairPoll).bound index ∨
          ((Targets.run pairPoll).step move).bound index = 0 :=
  poll_binds_all_or_none (by
    unfold pairPoll
    exact ⟨rfl, rfl, rfl, rfl, rfl, rfl, rfl, rfl, rfl, trivial⟩)

/-- A thread that binds the second index behind the poll's look leaves the poll refused and the
first index bound. -/
theorem poll_binds_some : ¬ ∀ moves, BindsAllOrNone (Targets.run moves) := by
  intro always
  have wrong := (always [.attachPull [0, 1], .poll 0 5, .run 0, .run 0, .run 0, .run 0, .run 0,
    .bindThread 1 6, .run 0] 0 { workers := [0, 1], call := some ⟨5, .returned false, [0]⟩ }
    ⟨5, .returned false, [0]⟩ rfl rfl).2 rfl
  cases wrong

end ZeroServer.Host
