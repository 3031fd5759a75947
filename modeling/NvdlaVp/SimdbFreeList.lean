import Mathlib.Algebra.Group.Nat.Defs
import NvdlaVp.IndexChain
import NvdlaVp.MachineRuns

set_option autoImplicit false

/-!
# `CncrLst`

The free blocks: one word of a version and an index, exchanged atomically, over an array
of links. A call of `nxt` or `free` loads the word, makes one access to a link and then
exchanges the word, or starts again if another call has exchanged it meanwhile.

`owner`, `changes`, `seen` and `log` are history, on which no step of a call branches; `mid`
are the blocks of the caller's list before `en`, the first of which is `st`.
-/
namespace NvdlaVp.Simdb
open MachineRuns IndexChain

def LIST_END : BitVec 32 := 0xFFFFFFFF
def NXT_VER_SPECIAL : BitVec 32 := 0xFFFFFFFF

structure Head where
  ver : BitVec 32
  idx : BitVec 32
  deriving DecidableEq, Repr

structure CncrLst where
  s_lv : BitVec 32 → BitVec 32
  s_h : Head

def incVersion (v : BitVec 32) : BitVec 32 := if v = NXT_VER_SPECIAL then 1 else v + 1

def CncrLst.new (size : ℕ) : CncrLst where
  s_lv i := if i.toNat < size - 1 then i + 1 else LIST_END
  s_h := ⟨0, 0⟩

/-- `nxt` with no other call under way. -/
def CncrLst.nxt (l : CncrLst) : BitVec 32 × CncrLst :=
  if l.s_h.idx = LIST_END then (LIST_END, l)
  else (l.s_h.idx, { l with s_h := ⟨incVersion l.s_h.ver, l.s_lv l.s_h.idx⟩ })

/-- `free` with no other call under way. -/
def CncrLst.free (l : CncrLst) (st en : BitVec 32) : CncrLst where
  s_lv := Function.update l.s_lv en l.s_h.idx
  s_h := ⟨l.s_h.ver + 1, st⟩

/-- The loop of `lnkCnt`. More links than there are indices never end. -/
def lnkLoop (s_lv : BitVec 32 → BitVec 32) : ℕ → ℕ → BitVec 32 → Option ℕ
  | 0, _, _ => none
  | fuel + 1, cnt, curIdx =>
    if curIdx = LIST_END then some cnt else lnkLoop s_lv fuel (cnt + 1) (s_lv curIdx)

def CncrLst.lnkCnt (l : CncrLst) : Option ℕ := lnkLoop l.s_lv (2 ^ 32) 0 l.s_h.idx

namespace FreeList

/-- What a call has done to the list, at the moment it does it. -/
inductive Event (τ ι : Type*) where
  | took (t : τ) (result : Option ι)
  | gave (t : τ) (blocks : List ι)
  deriving DecidableEq, Repr

/-- The next access of a thread's call, with the locals that are still live. -/
inductive Pc where
  | idle
  | nxtLoaded (cur : Head) (seen : ℕ)
  | nxtRead (cur : Head) (nxt : BitVec 32) (seen : ℕ)
  | freeLoaded (cur : Head) (st : BitVec 32) (mid : List (BitVec 32)) (en : BitVec 32)
  | freeLinked (cur : Head) (st : BitVec 32) (mid : List (BitVec 32)) (en : BitVec 32)
  deriving DecidableEq, Repr

structure State (τ : Type*) where
  lst : CncrLst
  pc : τ → Pc
  owner : BitVec 32 → Option τ
  changes : ℕ
  log : List (Event τ (BitVec 32))

inductive Action (τ : Type*) where
  | nxt (t : τ)
  | free (t : τ) (st : BitVec 32) (mid : List (BitVec 32)) (en : BitVec 32)
  | hand (t t' : τ) (i : BitVec 32)
  | go (t : τ)

variable {τ : Type*} [DecidableEq τ]

def State.init (τ : Type*) (size : ℕ) : State τ where
  lst := .new size
  pc := fun _ => .idle
  owner := fun _ => none
  changes := 0
  log := []

def State.setPc (s : State τ) (t : τ) (p : Pc) : State τ :=
  { s with pc := Function.update s.pc t p }

/-- The word is loaded at the start of `nxt`, and again by an exchange that fails. -/
def State.load (s : State τ) (t : τ) : State τ :=
  { s.setPc t (.nxtLoaded s.lst.s_h s.changes) with
    log := if s.lst.s_h.idx = LIST_END then s.log ++ [.took t none] else s.log }

/-- The caller of `free` gives the first and the last one of a list of blocks that it has. -/
structure Gives (s : State τ) (t : τ) (st : BitVec 32) (mid : List (BitVec 32))
    (en : BitVec 32) : Prop where
  nodup : (mid ++ [en]).Nodup
  first : (mid ++ [en]).head? = some st
  owned : ∀ i ∈ mid ++ [en], s.owner i = some t

instance (s : State τ) (t : τ) (st : BitVec 32) (mid : List (BitVec 32)) (en : BitVec 32) :
    Decidable (Gives s t st mid en) :=
  -- by the list, not by all the indices there are
  have : Decidable (∀ i ∈ mid ++ [en], s.owner i = some t) := List.decidableBAll _ _
  decidable_of_iff ((mid ++ [en]).Nodup ∧ (mid ++ [en]).head? = some st ∧
    ∀ i ∈ mid ++ [en], s.owner i = some t)
    ⟨fun ⟨h, h', h''⟩ => ⟨h, h', h''⟩, fun ⟨h, h', h''⟩ => ⟨h, h', h''⟩⟩

def State.take (s : State τ) (t : τ) (cur : Head) (nxt : BitVec 32) : State τ :=
  { s.setPc t .idle with
    lst := { s.lst with s_h := ⟨incVersion cur.ver, nxt⟩ }
    owner := Function.update s.owner cur.idx (some t)
    changes := s.changes + 1
    log := s.log ++ [.took t (some cur.idx)] }

def State.link (s : State τ) (t : τ) (cur : Head) (st : BitVec 32) (mid : List (BitVec 32))
    (en : BitVec 32) : State τ :=
  { s.setPc t (.freeLinked cur st mid en) with
    lst := { s.lst with s_lv := Function.update s.lst.s_lv en cur.idx } }

def State.give (s : State τ) (t : τ) (cur : Head) (st : BitVec 32) (mid : List (BitVec 32))
    (en : BitVec 32) : State τ :=
  { s.setPc t .idle with
    lst := { s.lst with s_h := ⟨cur.ver + 1, st⟩ }
    owner := fun i => if i ∈ mid ++ [en] then none else s.owner i
    changes := s.changes + 1
    log := s.log ++ [.gave t (mid ++ [en])] }

/-- The block of one thread becomes that of another, which may delete the entry. -/
def State.hand (s : State τ) (t' : τ) (i : BitVec 32) : State τ :=
  { s with owner := Function.update s.owner i (some t') }

def go (s : State τ) (t : τ) : Option (State τ) :=
  match s.pc t with
  | .idle => none
  | .nxtLoaded cur seen =>
    if cur.idx = LIST_END then some (s.setPc t .idle)
    else some (s.setPc t (.nxtRead cur (s.lst.s_lv cur.idx) seen))
  | .nxtRead cur nxt _ =>
    if s.lst.s_h = cur then some (s.take t cur nxt) else some (s.load t)
  | .freeLoaded cur st mid en => some (s.link t cur st mid en)
  | .freeLinked cur st mid en =>
    if s.lst.s_h = cur then some (s.give t cur st mid en)
    else some (s.setPc t (.freeLoaded s.lst.s_h st mid en))

def step (s : State τ) : Action τ → Option (State τ)
  | .nxt t => if s.pc t = .idle then some (s.load t) else none
  | .free t st mid en =>
    if s.pc t = .idle ∧ Gives s t st mid en then
      some (s.setPc t (.freeLoaded s.lst.s_h st mid en))
    else none
  | .hand t t' i => if s.pc t = .idle ∧ s.owner i = some t then some (s.hand t' i) else none
  | .go t => go s t

def machine (τ : Type*) [DecidableEq τ] (size : ℕ) : Machine (State τ) (Action τ) :=
  ⟨.init τ size, step⟩

/-- The version of the word may have come round since a `nxt` has loaded it. -/
def Pc.stale (changes : ℕ) : Pc → Bool
  | .nxtRead _ _ seen => 2 ^ 32 - 1 ≤ changes - seen
  | _ => false

/-- The word is exchanged less often than its version has values while a `nxt` is about to
    exchange it. -/
def Prompt (s : State τ) : Action τ → Prop
  | .go t => (s.pc t).stale s.changes = false
  | _ => True

instance (s : State τ) : (a : Action τ) → Decidable (Prompt s a)
  | .nxt _ => inferInstanceAs (Decidable True)
  | .free .. => inferInstanceAs (Decidable True)
  | .hand .. => inferInstanceAs (Decidable True)
  | .go t => inferInstanceAs (Decidable ((s.pc t).stale s.changes = false))

/-- The links of the list run through the blocks that are given back. `doFree` has them from the
    links of the entry, which are others. -/
def Linked (s : State τ) : Action τ → Prop
  | .free _ st mid en => Chain s.lst.s_lv st mid en
  | _ => True

instance (s : State τ) : (a : Action τ) → Decidable (Linked s a)
  | .nxt _ => inferInstanceAs (Decidable True)
  | .free _ st mid en => inferInstanceAs (Decidable (Chain s.lst.s_lv st mid en))
  | .hand .. => inferInstanceAs (Decidable True)
  | .go _ => inferInstanceAs (Decidable True)

inductive Move (s : State τ) : Action τ → State τ → Prop where
  | nxtLoad (t : τ) (hpc : s.pc t = .idle) : Move s (.nxt t) (s.load t)
  | freeLoad (t : τ) (st : BitVec 32) (mid : List (BitVec 32)) (en : BitVec 32)
      (hpc : s.pc t = .idle) (hgives : Gives s t st mid en) :
      Move s (.free t st mid en) (s.setPc t (.freeLoaded s.lst.s_h st mid en))
  | hand (t t' : τ) (i : BitVec 32) (hpc : s.pc t = .idle) (howner : s.owner i = some t) :
      Move s (.hand t t' i) (s.hand t' i)
  | nxtEnd (t : τ) (cur : Head) (seen : ℕ) (hpc : s.pc t = .nxtLoaded cur seen)
      (hend : cur.idx = LIST_END) : Move s (.go t) (s.setPc t .idle)
  | nxtRead (t : τ) (cur : Head) (seen : ℕ) (hpc : s.pc t = .nxtLoaded cur seen)
      (hend : cur.idx ≠ LIST_END) :
      Move s (.go t) (s.setPc t (.nxtRead cur (s.lst.s_lv cur.idx) seen))
  | take (t : τ) (cur : Head) (nxt : BitVec 32) (seen : ℕ) (hpc : s.pc t = .nxtRead cur nxt seen)
      (hcur : s.lst.s_h = cur) : Move s (.go t) (s.take t cur nxt)
  | nxtRetry (t : τ) (cur : Head) (nxt : BitVec 32) (seen : ℕ)
      (hpc : s.pc t = .nxtRead cur nxt seen) (hcur : s.lst.s_h ≠ cur) : Move s (.go t) (s.load t)
  | link (t : τ) (cur : Head) (st : BitVec 32) (mid : List (BitVec 32)) (en : BitVec 32)
      (hpc : s.pc t = .freeLoaded cur st mid en) : Move s (.go t) (s.link t cur st mid en)
  | give (t : τ) (cur : Head) (st : BitVec 32) (mid : List (BitVec 32)) (en : BitVec 32)
      (hpc : s.pc t = .freeLinked cur st mid en) (hcur : s.lst.s_h = cur) :
      Move s (.go t) (s.give t cur st mid en)
  | freeRetry (t : τ) (cur : Head) (st : BitVec 32) (mid : List (BitVec 32)) (en : BitVec 32)
      (hpc : s.pc t = .freeLinked cur st mid en) (hcur : s.lst.s_h ≠ cur) :
      Move s (.go t) (s.setPc t (.freeLoaded s.lst.s_h st mid en))

theorem go_move {s u : State τ} {t : τ} (h : go s t = some u) : Move s (.go t) u := by
  unfold go at h
  cases hpc : s.pc t with
  | idle => simp [hpc] at h
  | nxtLoaded cur seen =>
    simp only [hpc] at h
    split at h
    · exact Option.some.inj h ▸ .nxtEnd t cur seen hpc ‹_›
    · exact Option.some.inj h ▸ .nxtRead t cur seen hpc ‹_›
  | nxtRead cur nxt seen =>
    simp only [hpc] at h
    split at h
    · exact Option.some.inj h ▸ .take t cur nxt seen hpc ‹_›
    · exact Option.some.inj h ▸ .nxtRetry t cur nxt seen hpc ‹_›
  | freeLoaded cur st mid en =>
    simp only [hpc] at h
    exact Option.some.inj h ▸ .link t cur st mid en hpc
  | freeLinked cur st mid en =>
    simp only [hpc] at h
    split at h
    · exact Option.some.inj h ▸ .give t cur st mid en hpc ‹_›
    · exact Option.some.inj h ▸ .freeRetry t cur st mid en hpc ‹_›

theorem step_move {s u : State τ} {a : Action τ} (h : step s a = some u) : Move s a u := by
  cases a with
  | nxt t =>
    rw [step] at h
    split at h
    · exact Option.some.inj h ▸ .nxtLoad t ‹_›
    · cases h
  | free t st mid en =>
    rw [step] at h
    split at h
    · rename_i hgives
      exact Option.some.inj h ▸ .freeLoad t st mid en hgives.1 hgives.2
    · cases h
  | hand t t' i =>
    rw [step] at h
    split at h
    · rename_i hhand
      exact Option.some.inj h ▸ .hand t t' i hhand.1 hhand.2
    · cases h
  | go t => exact go_move h

section Alone
variable {s : State τ} {t : τ} {size : ℕ}

theorem nxt_alone (hpc : s.pc t = .idle) : ∃ as u, (machine τ size).Runs s as u ∧
    u.pc t = .idle ∧ u.lst = s.lst.nxt.2 ∧ u.log = s.log ++
      [.took t (if s.lst.s_h.idx = LIST_END then none else some s.lst.nxt.1)] := by
  have hload : step s (.nxt t) = some (s.load t) := by
    rw [step, if_pos hpc]
  by_cases hend : s.lst.s_h.idx = LIST_END
  · refine ⟨[.nxt t, .go t], (s.load t).setPc t .idle, .next trivial hload (.one trivial ?_),
      ?_, ?_, ?_⟩
    · simp only [machine, step, go, State.load, State.setPc, Function.update_self, if_pos hend]
    · exact Function.update_self _ _ _
    · rw [CncrLst.nxt, if_pos hend]
      rfl
    · simp only [State.load, State.setPc, if_pos hend]
  · refine ⟨[.nxt t, .go t, .go t], _, .next trivial hload (.next trivial
      (u := (s.load t).setPc t (.nxtRead s.lst.s_h (s.lst.s_lv s.lst.s_h.idx) s.changes)) ?_
      (.one trivial (u := ((s.load t).setPc t (.nxtRead s.lst.s_h (s.lst.s_lv s.lst.s_h.idx)
        s.changes)).take t s.lst.s_h (s.lst.s_lv s.lst.s_h.idx)) ?_)), ?_, ?_, ?_⟩
    · simp only [machine, step, go, State.load, State.setPc, Function.update_self, if_neg hend]
    · simp only [machine, step, go, State.load, State.setPc, Function.update_self, if_true]
    · exact Function.update_self _ _ _
    · rw [CncrLst.nxt, if_neg hend]
      rfl
    · simp only [State.take, State.load, State.setPc, CncrLst.nxt, if_neg hend]

theorem free_alone {st en : BitVec 32} {mid : List (BitVec 32)} (hpc : s.pc t = .idle)
    (hgives : Gives s t st mid en) : ∃ u v,
      (machine τ size).step s (.free t st mid en) = some u ∧
      (machine τ size).RunsWith Prompt u [.go t, .go t] v ∧ v.pc t = .idle ∧
      v.lst = s.lst.free st en ∧ v.log = s.log ++ [.gave t (mid ++ [en])] := by
  refine ⟨s.setPc t (.freeLoaded s.lst.s_h st mid en), _, ?_, .next ?_
    (u := (s.setPc t (.freeLoaded s.lst.s_h st mid en)).link t s.lst.s_h st mid en) ?_
    (.one ?_ (u := ((s.setPc t (.freeLoaded s.lst.s_h st mid en)).link t s.lst.s_h st mid
      en).give t s.lst.s_h st mid en) ?_), ?_, rfl, rfl⟩
  · simp only [machine, step, hpc, hgives, and_self, if_true]
  · simp only [Prompt, State.setPc, Function.update_self, Pc.stale]
  · simp only [machine, step, go, State.setPc, Function.update_self]
  · simp only [Prompt, State.link, State.setPc, Function.update_self, Pc.stale]
  · simp only [machine, step, go, State.link, State.setPc, Function.update_self, if_true]
  · exact Function.update_self _ _ _

end Alone

end FreeList
end NvdlaVp.Simdb
