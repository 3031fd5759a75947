import Mathlib.Data.BitVec
import NvdlaVp.MachineRuns

set_option autoImplicit false

/-!
# The polling thread of `Msi2gss`

The constructor assigns the result of `pthread_create` to the member through which the
identifier of the thread has been stored, and the destructor joins what that member holds.
-/
namespace NvdlaVp.MsiPolling
open MachineRuns

inductive Owner where
  | create
  | assign (rc : BitVec 32)
  | simulate
  | join
  | destroyed
  deriving DecidableEq, Repr

inductive Poll where
  | absent
  | readFd
  | polling
  | notify
  | readStop
  | left
  deriving DecidableEq, Repr

/-- What `PollMsi` reads of `thread_state`; `notify()` is called on the event it reads. -/
inductive Access where
  | fd
  | msi_event
  | stop
  deriving DecidableEq, Repr

/-- `late` is history: what `PollMsi` has read after the destructor returned. -/
structure State where
  owner : Owner
  poll : Poll
  stop : Bool
  thread : BitVec 64
  aborted : Bool
  late : List Access
  deriving DecidableEq, Repr

/-- The constructor has filled `thread_state` but for the thread. -/
def State.init : State where
  owner := .create
  poll := .absent
  stop := false
  thread := 0
  aborted := false
  late := []

def POLLIN : BitVec 16 := 1

def State.read (s : State) (x : Access) : State :=
  { s with late := if s.owner = .destroyed then s.late ++ [x] else s.late }

/-- `assert(0)`, which is left out of a build with `NDEBUG`. -/
def assertFalse (ndebug : Bool) (s : State) : State :=
  if ndebug then { s with poll := .readStop } else { s with aborted := true }

/-- `PollMsi` after `poll` has returned. -/
def polled (ndebug : Bool) (rc : ℤ) (revents : BitVec 16) (s : State) : State :=
  if rc < 0 then assertFalse ndebug s
  else if rc > 0 then
    if revents = POLLIN then { s with poll := .notify } else assertFalse ndebug s
  else { s with poll := .readStop }

inductive Action where
  | pthread_create
  | pthread_create_fails (rc : BitVec 32)
  | assign
  | stop
  | pthread_join
  | poll (rc : ℤ) (revents : BitVec 16)
  | run
  deriving DecidableEq, Repr

/-- The construction and the destruction. A join waits for the thread that it identifies, and
    returns with an error if there is none. -/
def ownerStep (tid : BitVec 64) (s : State) : Action → Option State
  | .pthread_create =>
    if s.owner = .create then
      some { s with owner := .assign 0, poll := .readFd, thread := tid }
    else none
  | .pthread_create_fails rc =>
    if s.owner = .create ∧ rc ≠ 0 then some { s with owner := .assign rc } else none
  | .assign =>
    match s.owner with
    | .assign rc => some { s with owner := .simulate, thread := rc.signExtend 64 }
    | _ => none
  | .stop =>
    if s.owner = .simulate then some { s with owner := .join, stop := true } else none
  | .pthread_join =>
    if s.owner = .join ∧ (s.thread = tid → s.poll = .absent ∨ s.poll = .left) then
      some { s with owner := .destroyed }
    else none
  | _ => none

def pollStep (ndebug : Bool) (s : State) : Action → Option State
  | .poll rc revents => if s.poll = .polling then some (polled ndebug rc revents s) else none
  | .run =>
    match s.poll with
    | .readFd => some { s.read .fd with poll := .polling }
    | .notify => some { s.read .msi_event with poll := .readStop }
    | .readStop => some { s.read .stop with poll := if s.stop then .left else .polling }
    | _ => none
  | _ => none

def step (tid : BitVec 64) (ndebug : Bool) (s : State) (a : Action) : Option State :=
  if s.aborted then none
  else
    match a with
    | .poll _ _ | .run => pollStep ndebug s a
    | _ => ownerStep tid s a

def machine (tid : BitVec 64) (ndebug : Bool) : Machine State Action :=
  ⟨.init, step tid ndebug⟩

def State.Gone (s : State) : Prop := s.poll = .absent ∨ s.poll = .left

instance (s : State) : Decidable s.Gone := inferInstanceAs (Decidable (_ ∨ _))

inductive Move (tid : BitVec 64) (ndebug : Bool) (s : State) : Action → State → Prop where
  | create (ho : s.owner = .create) : Move tid ndebug s .pthread_create
      { s with owner := .assign 0, poll := .readFd, thread := tid }
  | createFails (rc : BitVec 32) (ho : s.owner = .create) (hrc : rc ≠ 0) :
      Move tid ndebug s (.pthread_create_fails rc) { s with owner := .assign rc }
  | assign (rc : BitVec 32) (ho : s.owner = .assign rc) : Move tid ndebug s .assign
      { s with owner := .simulate, thread := rc.signExtend 64 }
  | stop (ho : s.owner = .simulate) :
      Move tid ndebug s .stop { s with owner := .join, stop := true }
  | join (ho : s.owner = .join) (ht : s.thread = tid → s.Gone) :
      Move tid ndebug s .pthread_join { s with owner := .destroyed }
  | poll (rc : ℤ) (revents : BitVec 16) (hp : s.poll = .polling) :
      Move tid ndebug s (.poll rc revents) (polled ndebug rc revents s)
  | readFd (hp : s.poll = .readFd) :
      Move tid ndebug s .run { s.read .fd with poll := .polling }
  | notify (hp : s.poll = .notify) :
      Move tid ndebug s .run { s.read .msi_event with poll := .readStop }
  | readStop (hp : s.poll = .readStop) :
      Move tid ndebug s .run { s.read .stop with poll := if s.stop then .left else .polling }

variable {tid : BitVec 64} {ndebug : Bool} {s u : State} {a : Action}

theorem ownerStep_move (h : ownerStep tid s a = some u) : Move tid ndebug s a u := by
  cases a with
  | pthread_create =>
    obtain ⟨ho, hu⟩ := Option.ite_none_right_eq_some.mp h
    obtain rfl := Option.some.inj hu
    exact .create ho
  | pthread_create_fails rc =>
    obtain ⟨⟨ho, hrc⟩, hu⟩ := Option.ite_none_right_eq_some.mp h
    obtain rfl := Option.some.inj hu
    exact .createFails rc ho hrc
  | assign =>
    rw [ownerStep.eq_def] at h
    dsimp only at h
    split at h
    · rename_i rc ho
      obtain rfl := Option.some.inj h
      exact .assign rc ho
    · exact absurd h nofun
  | stop =>
    obtain ⟨ho, hu⟩ := Option.ite_none_right_eq_some.mp h
    obtain rfl := Option.some.inj hu
    exact .stop ho
  | pthread_join =>
    obtain ⟨⟨ho, ht⟩, hu⟩ := Option.ite_none_right_eq_some.mp h
    obtain rfl := Option.some.inj hu
    exact .join ho ht
  | poll | run => exact absurd h nofun

theorem pollStep_move (h : pollStep ndebug s a = some u) : Move tid ndebug s a u := by
  cases a <;> simp only [pollStep, reduceCtorEq, Option.ite_none_right_eq_some,
    Option.some.injEq] at h
  case poll rc revents =>
    obtain ⟨hp, rfl⟩ := h
    exact .poll rc revents hp
  case run =>
    split at h
    · obtain rfl := Option.some.inj h
      exact .readFd (by assumption)
    · obtain rfl := Option.some.inj h
      exact .notify (by assumption)
    · obtain rfl := Option.some.inj h
      exact .readStop (by assumption)
    · exact absurd h nofun

theorem step_move (h : step tid ndebug s a = some u) :
    s.aborted = false ∧ Move tid ndebug s a u := by
  unfold step at h
  split at h
  · exact absurd h nofun
  · refine ⟨Bool.eq_false_iff.mpr (by assumption), ?_⟩
    split at h
    · exact pollStep_move h
    · exact pollStep_move h
    · exact ownerStep_move h

/-- After the destructor has returned, `PollMsi` is gone and has not read anything since. -/
def NotOutlived (s : State) : Prop := s.owner = .destroyed → s.Gone ∧ s.late = []

/-- The join comes when `PollMsi` is gone, or the identifier is the 0 that is assigned over it. -/
def JoinedGone (tid : BitVec 64) (s : State) (a : Action) : Prop :=
  a = .pthread_join → s.Gone ∨ tid = 0

instance (tid : BitVec 64) (s : State) (a : Action) : Decidable (JoinedGone tid s a) :=
  inferInstanceAs (Decidable (_ → _))

/-- Where `PollMsi` runs, the constructor has lost or is about to lose its identifier. -/
structure Lost (s : State) : Prop where
  absent : s.owner = .create → s.poll = .absent
  assign : ∀ rc, s.owner = .assign rc → s.poll = .absent ∨ rc = 0
  thread : s.owner = .simulate ∨ s.owner = .join → s.poll = .absent ∨ s.thread = 0
  late : s.owner ≠ .destroyed → s.late = []

theorem lost_init : Lost State.init where
  absent _ := rfl
  assign _ _ := .inl rfl
  thread _ := .inl rfl
  late _ := rfl

theorem read_late (x : Access) (hs : s.owner ≠ .destroyed) : (s.read x).late = s.late :=
  if_neg hs

theorem polled_owner (rc : ℤ) (revents : BitVec 16) :
    (polled ndebug rc revents s).owner = s.owner ∧
      (polled ndebug rc revents s).thread = s.thread ∧
      (polled ndebug rc revents s).late = s.late := by
  unfold polled assertFalse
  split_ifs <;> exact ⟨rfl, rfl, rfl⟩

theorem Lost.run {s u : State} (h : Lost s) (howner : u.owner = s.owner)
    (hthread : u.thread = s.thread) (hlate : s.owner ≠ .destroyed → u.late = s.late)
    (hpoll : s.poll ≠ .absent) : Lost u where
  absent ho := absurd (h.absent (howner ▸ ho)) hpoll
  assign rc ho := .inr ((h.assign rc (howner ▸ ho)).resolve_left hpoll)
  thread ho := .inr (hthread.trans ((h.thread (howner ▸ ho)).resolve_left hpoll))
  late ho := (hlate (howner ▸ ho)).trans (h.late (howner ▸ ho))

theorem Lost.step (h : Lost s) (hmove : Move tid ndebug s a u) : Lost u := by
  cases hmove with
  | create ho =>
    refine ⟨nofun, fun rc hrc => .inr ?_, nofun, fun _ => h.late (by simp [ho])⟩
    exact (Owner.assign.inj hrc).symm
  | createFails rc ho hrc =>
    exact ⟨nofun, fun _ _ => .inl (h.absent ho), nofun, fun _ => h.late (by simp [ho])⟩
  | assign rc ho =>
    refine ⟨nofun, nofun, fun _ => ?_, fun _ => h.late (by simp [ho])⟩
    rcases h.assign rc ho with habsent | rfl
    · exact .inl habsent
    · exact .inr rfl
  | stop ho => exact ⟨nofun, nofun, fun _ => h.thread (.inl ho), fun _ => h.late (by simp [ho])⟩
  | join ho ht => exact ⟨nofun, nofun, nofun, fun hne => absurd rfl hne⟩
  | poll rc revents hp =>
    obtain ⟨howner, hthread, hlate⟩ := polled_owner rc revents
    exact h.run howner hthread (fun _ => hlate) (by simp [hp])
  | readFd hp => exact h.run rfl rfl (fun hs => read_late .fd hs) (by simp [hp])
  | notify hp => exact h.run rfl rfl (fun hs => read_late .msi_event hs) (by simp [hp])
  | readStop hp => exact h.run rfl rfl (fun hs => read_late .stop hs) (by simp [hp])

theorem not_gone_of_run (hmove : Move tid ndebug s a u) (howner : u.owner = .destroyed)
    (ha : a ≠ .pthread_join) : ¬ s.Gone ∧ s.owner = .destroyed := by
  cases hmove with
  | create | createFails | assign | stop => exact absurd howner nofun
  | join => exact absurd rfl ha
  | poll rc revents hp =>
    exact ⟨by simp [State.Gone, hp], (polled_owner rc revents).1 ▸ howner⟩
  | readFd hp => exact ⟨by simp [State.Gone, hp], howner⟩
  | notify hp => exact ⟨by simp [State.Gone, hp], howner⟩
  | readStop hp => exact ⟨by simp [State.Gone, hp], howner⟩

theorem notOutlived_step (h : Lost s) (hs : NotOutlived s) (hC : JoinedGone tid s a)
    (hmove : Move tid ndebug s a u) : NotOutlived u := by
  intro howner
  by_cases ha : a = .pthread_join
  · subst ha
    cases hmove with
    | join ho ht =>
      refine ⟨?_, h.late (by simp [ho])⟩
      rcases hC rfl with hgone | htid
      · exact hgone
      · rcases h.thread (.inr ho) with habsent | hthread
        · exact .inl habsent
        · exact ht (hthread.trans htid.symm)
  · obtain ⟨hgone, hdestroyed⟩ := not_gone_of_run hmove howner ha
    exact absurd (hs hdestroyed).1 hgone

theorem joinedGone_of_notOutlived (hmove : Move tid ndebug s a u) (hu : NotOutlived u) :
    JoinedGone tid s a := by
  rintro rfl
  cases hmove with
  | join ho ht => exact .inl (hu rfl).1

theorem reads_after {s : State} (hpoll : s.poll = .readFd ∨ s.poll = .notify ∨ s.poll = .readStop)
    (howner : s.owner = .destroyed) (habort : s.aborted = false) :
    ∃ v, (machine tid ndebug).step s .run = some v ∧ v.owner = .destroyed ∧ v.late ≠ [] := by
  have hread (x : Access) : (s.read x).late ≠ [] := by simp [State.read, howner]
  have hrun : (machine tid ndebug).step s .run = pollStep ndebug s .run := by
    simp [machine, step, habort]
  rw [hrun]
  rcases hpoll with hpoll | hpoll | hpoll
  · exact ⟨{ s.read .fd with poll := .polling }, by rw [pollStep, hpoll], howner, hread .fd⟩
  · exact ⟨{ s.read .msi_event with poll := .readStop }, by rw [pollStep, hpoll], howner,
      hread .msi_event⟩
  · exact ⟨{ s.read .stop with poll := if s.stop then .left else .polling },
      by rw [pollStep, hpoll], howner, hread .stop⟩

/-- A thread that outlives the module goes on to read its state. -/
theorem reads_eventually {s : State} (hgone : ¬ s.Gone) (howner : s.owner = .destroyed)
    (habort : s.aborted = false) :
    ∃ bs v, (machine tid ndebug).Runs s bs v ∧ v.owner = .destroyed ∧ v.late ≠ [] := by
  cases hpoll : s.poll with
  | absent => exact absurd (.inl hpoll) hgone
  | left => exact absurd (.inr hpoll) hgone
  | readFd =>
    obtain ⟨v, hstep, hlate⟩ := reads_after (.inl hpoll) howner habort
    exact ⟨[.run], v, .one trivial hstep, hlate⟩
  | notify =>
    obtain ⟨v, hstep, hlate⟩ := reads_after (.inr (.inl hpoll)) howner habort
    exact ⟨[.run], v, .one trivial hstep, hlate⟩
  | readStop =>
    obtain ⟨v, hstep, hlate⟩ := reads_after (.inr (.inr hpoll)) howner habort
    exact ⟨[.run], v, .one trivial hstep, hlate⟩
  | polling =>
    have hpolled : (machine tid ndebug).step s (.poll 0 0) = some { s with poll := .readStop } := by
      simp [machine, step, habort, pollStep, hpoll, polled]
    obtain ⟨v, hstep, hlate⟩ := reads_after (s := { s with poll := .readStop })
      (.inr (.inr rfl)) howner habort
    exact ⟨[.poll 0 0, .run], v, .next trivial hpolled (.one trivial hstep), hlate⟩

theorem not_outlived_exactly (tid : BitVec 64) (ndebug : Bool) :
    (∀ as s, (machine tid ndebug).Runs .init as s →
      ((machine tid ndebug).Throughout NotOutlived .init as ↔
        (machine tid ndebug).RunsWith (JoinedGone tid) .init as s)) ∧
    (∀ as s a u, (machine tid ndebug).Runs .init as s → step tid ndebug s a = some u →
      ¬ JoinedGone tid s a →
        ∃ bs v, (machine tid ndebug).Runs u bs v ∧ v.owner = .destroyed ∧ v.late ≠ []) := by
  refine ⟨fun as s h => ?_, fun as s a u h hstep hC => ?_⟩
  · refine Machine.throughout_iff Lost NotOutlived lost_init nofun ?_ ?_ ?_ h
    · intro s a u hs _ hstep
      exact hs.step (step_move hstep).2
    · intro s a u hs hP hC hstep
      exact notOutlived_step hs hP hC (step_move hstep).2
    · intro s a u _ _ hstep hu
      exact joinedGone_of_notOutlived (step_move hstep).2 hu
  · obtain ⟨rfl, hgone, -⟩ : a = .pthread_join ∧ ¬ s.Gone ∧ tid ≠ 0 := by
      simpa [JoinedGone] using hC
    obtain ⟨habort, hmove⟩ := step_move hstep
    cases hmove with
    | join ho ht => exact reads_eventually hgone rfl habort

/-- The thread sees `stop` and leaves before the join, which then finds no thread to wait for. -/
def stoppedInTime : List Action :=
  [.pthread_create, .assign, .run, .poll 1 POLLIN, .run, .run, .stop, .poll 0 0, .run,
    .pthread_join]

theorem not_outlived_exactly_stopped :
    ∃ s, (machine 0x7f00 false).RunsWith (JoinedGone 0x7f00) .init stoppedInTime s ∧
      s.owner = .destroyed ∧
      (machine 0x7f00 false).Throughout NotOutlived .init stoppedInTime := by
  obtain ⟨s, hrun, howner⟩ := Machine.runsWith_of_eval (machine 0x7f00 false)
    (JoinedGone 0x7f00) stoppedInTime (fun s => s.owner = .destroyed) (by decide)
  exact ⟨s, hrun, howner, ((not_outlived_exactly 0x7f00 false).1 _ s hrun.runs).mpr hrun⟩

theorem polls_after_destruction :
    ¬ ∀ as s, (machine 0x7f00 false).Runs .init as s → NotOutlived s := by
  intro hall
  obtain ⟨s, hrun, howner, hlate⟩ := Machine.runsWith_of_eval (machine 0x7f00 false)
    (fun _ _ => True)
    [.pthread_create, .assign, .run, .stop, .pthread_join, .poll 1 POLLIN, .run, .run]
    (fun s => s.owner = .destroyed ∧ s.late = [.msi_event, .stop]) (by decide)
  have hnone := (hall _ s hrun howner).2
  rw [hlate] at hnone
  exact absurd hnone nofun

end NvdlaVp.MsiPolling
