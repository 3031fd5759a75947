import Mathlib.Data.Fintype.Basic
import NvdlaVp.MachineRuns
import NvdlaVp.SimdbBlocks

set_option autoImplicit false

/-!
# `incReaders` and `decReadersOrDel` at the same time

A list of blocks is freed by the call of `free`, or by the last reader after it. Each call
loads the word of the readers, looks at the version and exchanges the word, and begins again
when another call has exchanged it meanwhile. A session is one call of `incReaders` and the
`decReadersOrDel` that belongs to it, or one of `free`.
-/
namespace NvdlaVp.Simdb
open MachineRuns

/-- The word that `decReadersOrDel` puts in the place of `cur`. -/
def KeyReaders.next (cur : KeyReaders) (del : Bool) : KeyReaders :=
  if del then { cur with isDeleted := true } else { cur with readers := cur.readers - 1 }

def KeyReaders.last (cur : KeyReaders) (del : Bool) : Bool :=
  if del then cur.readers = 0 ∧ !cur.isDeleted else cur.readers = 1 ∧ cur.isDeleted

def KeyReaders.refuses (cur : KeyReaders) : Bool := cur.readers.msb || cur.isDeleted

namespace Readers

inductive Pc where
  | idle
  | incLoaded (version : BitVec 32) (cur : KeyReaders)
  | incChecked (version : BitVec 32) (cur : KeyReaders)
  | inside (version : BitVec 32)
  | decLoaded (version : BitVec 32) (del : Bool) (cur : KeyReaders)
  | decChecked (version : BitVec 32) (del : Bool) (cur : KeyReaders)
  | freeing (version : BitVec 32)
  deriving DecidableEq, Repr

/-- What a session has to do with the list: it reads, it is to free it when there is no reader,
    or it is about to free it. -/
inductive Role where
  | none
  | reads
  | frees
  | freeing
  deriving DecidableEq, Repr

namespace Pc

def role : Pc → Role
  | idle | incLoaded _ _ | incChecked _ _ => .none
  | inside _ | decLoaded _ false _ | decChecked _ false _ => .reads
  | decLoaded _ true _ | decChecked _ true _ => .frees
  | freeing _ => .freeing

def own : Pc → Option (BitVec 32)
  | idle | incLoaded _ _ | incChecked _ _ => Option.none
  | inside v | decLoaded v _ _ | decChecked v _ _ | freeing v => some v

def checkedVersion : Pc → Option (BitVec 32)
  | incChecked v _ => some v
  | _ => Option.none

end Pc

/-- The head of a list of blocks; `retired` and `freed` are history: that `free` has been called,
    and how often the list has been freed. -/
structure State (τ : Type*) where
  kr : KeyReaders
  version : BitVec 32
  pc : τ → Pc
  retired : Bool
  freed : ℕ

inductive Action (τ : Type*) where
  | inc (t : τ) (version : BitVec 32)
  | dec (t : τ)
  | free (t : τ)
  | go (t : τ)
  | alloc (version : BitVec 32)
  deriving DecidableEq, Repr

variable {τ : Type*} [DecidableEq τ]

def State.setPc (s : State τ) (t : τ) (p : Pc) : State τ :=
  { s with pc := Function.update s.pc t p }

def fresh : KeyReaders := ⟨true, false, 0⟩

omit [DecidableEq τ] in
def State.init (version : BitVec 32) : State τ := ⟨fresh, version, fun _ => .idle, false, 0⟩

def go (s : State τ) (t : τ) : Option (State τ) :=
  match s.pc t with
  | .idle | .inside _ => none
  | .incLoaded version cur =>
    if s.version ≠ version ∨ cur.refuses then some (s.setPc t .idle)
    else some (s.setPc t (.incChecked version cur))
  | .incChecked version cur =>
    if s.kr = cur then
      some { s.setPc t (.inside version) with kr := { cur with readers := cur.readers + 1 } }
    else some (s.setPc t (.incLoaded version s.kr))
  | .decLoaded version del cur =>
    if s.version ≠ version then some (s.setPc t .idle)
    else some (s.setPc t (.decChecked version del cur))
  | .decChecked version del cur =>
    if s.kr = cur then
      some { s.setPc t (if cur.last del then .freeing version else .idle) with kr := cur.next del }
    else some (s.setPc t (.decLoaded version del s.kr))
  | .freeing _ => some { s.setPc t .idle with version := 0, freed := s.freed + 1 }

/-- `free` is called once for a list, with its version: by the call that has taken the list out
    of the table. Blocks that are free are given out again. -/
def step (s : State τ) : Action τ → Option (State τ)
  | .inc t version => match s.pc t with
    | .idle => some (s.setPc t (.incLoaded version s.kr))
    | _ => none
  | .dec t => match s.pc t with
    | .inside version => some (s.setPc t (.decLoaded version false s.kr))
    | _ => none
  | .free t => match s.pc t with
    | .idle =>
      if s.retired then none
      else some { s.setPc t (.decLoaded s.version true s.kr) with retired := true }
    | _ => none
  | .go t => go s t
  | .alloc version =>
    if s.freed = 1 then
      some { s with kr := fresh, version := version, retired := false, freed := 0 }
    else none

def machine (τ : Type*) [DecidableEq τ] (version : BitVec 32) : Machine (State τ) (Action τ) :=
  ⟨.init version, step⟩

/-- The blocks are not given out again while a session that has looked at the version before is
    about to count itself. -/
def Prompt (s : State τ) : Action τ → Prop
  | .alloc version => ∀ t, (s.pc t).checkedVersion.all fun v => v = version
  | _ => True

instance [Fintype τ] (s : State τ) : (a : Action τ) → Decidable (Prompt s a)
  | .alloc version =>
    inferInstanceAs (Decidable (∀ t, (s.pc t).checkedVersion.all fun v => v = version))
  | .inc _ _ | .dec _ | .free _ | .go _ => inferInstanceAs (Decidable True)

inductive Move (s : State τ) : Action τ → State τ → Prop where
  | inc (t : τ) (version : BitVec 32) (hpc : s.pc t = .idle) :
      Move s (.inc t version) (s.setPc t (.incLoaded version s.kr))
  | dec (t : τ) (version : BitVec 32) (hpc : s.pc t = .inside version) :
      Move s (.dec t) (s.setPc t (.decLoaded version false s.kr))
  | free (t : τ) (hpc : s.pc t = .idle) (hretired : s.retired = false) :
      Move s (.free t) { s.setPc t (.decLoaded s.version true s.kr) with retired := true }
  | refused (t : τ) (version : BitVec 32) (cur : KeyReaders)
      (hpc : s.pc t = .incLoaded version cur) :
      Move s (.go t) (s.setPc t .idle)
  | checked (t : τ) (version : BitVec 32) (cur : KeyReaders)
      (hpc : s.pc t = .incLoaded version cur) (hversion : s.version = version)
      (hcur : cur.refuses = false) : Move s (.go t) (s.setPc t (.incChecked version cur))
  | counted (t : τ) (version : BitVec 32) (cur : KeyReaders)
      (hpc : s.pc t = .incChecked version cur) (hkr : s.kr = cur) : Move s (.go t)
      { s.setPc t (.inside version) with kr := { cur with readers := cur.readers + 1 } }
  | incRetry (t : τ) (version : BitVec 32) (cur : KeyReaders)
      (hpc : s.pc t = .incChecked version cur) :
      Move s (.go t) (s.setPc t (.incLoaded version s.kr))
  | gone (t : τ) (version : BitVec 32) (del : Bool) (cur : KeyReaders)
      (hpc : s.pc t = .decLoaded version del cur) (hversion : s.version ≠ version) :
      Move s (.go t) (s.setPc t .idle)
  | decChecked (t : τ) (version : BitVec 32) (del : Bool) (cur : KeyReaders)
      (hpc : s.pc t = .decLoaded version del cur) :
      Move s (.go t) (s.setPc t (.decChecked version del cur))
  | exchanged (t : τ) (version : BitVec 32) (del : Bool) (cur : KeyReaders)
      (hpc : s.pc t = .decChecked version del cur) (hkr : s.kr = cur) : Move s (.go t)
      { s.setPc t (if cur.last del then .freeing version else .idle) with kr := cur.next del }
  | decRetry (t : τ) (version : BitVec 32) (del : Bool) (cur : KeyReaders)
      (hpc : s.pc t = .decChecked version del cur) :
      Move s (.go t) (s.setPc t (.decLoaded version del s.kr))
  | doFree (t : τ) (version : BitVec 32) (hpc : s.pc t = .freeing version) :
      Move s (.go t) { s.setPc t .idle with version := 0, freed := s.freed + 1 }
  | alloc (version : BitVec 32) (hfreed : s.freed = 1) : Move s (.alloc version)
      { s with kr := fresh, version := version, retired := false, freed := 0 }

theorem go_move {s u : State τ} {t : τ} (h : go s t = some u) : Move s (.go t) u := by
  unfold go at h
  cases hpc : s.pc t with
  | idle => simp [hpc] at h
  | inside version => simp [hpc] at h
  | incLoaded version cur =>
    simp only [hpc] at h
    split at h
    · exact Option.some.inj h ▸ .refused t version cur hpc
    · rename_i hok
      rw [not_or, not_not, Bool.not_eq_true] at hok
      exact Option.some.inj h ▸ .checked t version cur hpc hok.1 hok.2
  | incChecked version cur =>
    simp only [hpc] at h
    split at h
    · exact Option.some.inj h ▸ .counted t version cur hpc ‹_›
    · exact Option.some.inj h ▸ .incRetry t version cur hpc
  | decLoaded version del cur =>
    simp only [hpc] at h
    split at h
    · exact Option.some.inj h ▸ .gone t version del cur hpc ‹_›
    · exact Option.some.inj h ▸ .decChecked t version del cur hpc
  | decChecked version del cur =>
    simp only [hpc] at h
    split at h
    · exact Option.some.inj h ▸ .exchanged t version del cur hpc ‹_›
    · exact Option.some.inj h ▸ .decRetry t version del cur hpc
  | freeing version =>
    simp only [hpc] at h
    exact Option.some.inj h ▸ .doFree t version hpc

theorem step_move {s u : State τ} {a : Action τ} (h : step s a = some u) : Move s a u := by
  cases a with
  | inc t version =>
    simp only [step] at h
    cases hpc : s.pc t <;> simp only [hpc, Option.some.injEq, reduceCtorEq] at h
    exact h ▸ .inc t version hpc
  | dec t =>
    simp only [step] at h
    cases hpc : s.pc t <;> simp only [hpc, Option.some.injEq, reduceCtorEq] at h
    exact h ▸ .dec t _ hpc
  | free t =>
    simp only [step] at h
    cases hpc : s.pc t <;> simp only [hpc, reduceCtorEq] at h
    split at h
    · cases h
    · rename_i hretired
      exact Option.some.inj h ▸ .free t hpc (Bool.not_eq_true _ ▸ hretired)
  | go t => exact go_move h
  | alloc version =>
    simp only [step] at h
    split at h
    · exact Option.some.inj h ▸ .alloc version ‹_›
    · cases h

section Alone
variable {s : State τ} {t : τ} {m : CncrStr} {i v version : BitVec 32}

/-- The block and the state of the protocol show the same. -/
structure At (s : State τ) (m : CncrStr) (i : BitVec 32) : Prop where
  kr : (m.s_bls i).kr = s.kr
  version : (m.s_bls i).version = s.version

theorem setKr_version (kr : KeyReaders) :
    ((m.setKr i kr).s_bls i).version = (m.s_bls i).version := by
  simp [CncrStr.setKr, CncrStr.setBlk]

theorem setKr_kr (kr : KeyReaders) : ((m.setKr i kr).s_bls i).kr = kr := by
  simp [CncrStr.setKr, CncrStr.setBlk]

theorem inc_alone (hat : At s m i) (hpc : s.pc t = .idle) (v : BitVec 32) :
    ∃ as u, (machine τ version).Runs s as u ∧ At u (m.incReaders i v).2 i ∧
      u.pc t = (if s.version ≠ v ∨ s.kr.refuses then .idle else .inside v) := by
  have hfirst : step s (.inc t v) = some (s.setPc t (.incLoaded v s.kr)) := by
    simp only [step, hpc]
  have hrefuses : (m.s_bls i).version ≠ v ∨ (m.s_bls i).kr.readers.msb ∨
      (m.s_bls i).kr.isDeleted ↔ s.version ≠ v ∨ s.kr.refuses := by
    rw [KeyReaders.refuses, Bool.or_eq_true, hat.kr, hat.version]
  by_cases hno : s.version ≠ v ∨ s.kr.refuses
  · refine ⟨[.inc t v, .go t], (s.setPc t (.incLoaded v s.kr)).setPc t .idle,
      .next trivial hfirst (.one trivial ?_), ?_, ?_⟩
    · simp only [machine, step, go, State.setPc, Function.update_self, if_pos hno]
    · rw [CncrStr.incReaders]
      simp only
      rw [if_pos (hrefuses.mpr hno)]
      exact ⟨hat.kr, hat.version⟩
    · rw [if_pos hno]
      exact Function.update_self _ _ _
  · refine ⟨[.inc t v, .go t, .go t], _, .next trivial hfirst (.next trivial
      (u := (s.setPc t (.incLoaded v s.kr)).setPc t (.incChecked v s.kr)) ?_
      (.one trivial (u := { ((s.setPc t (.incLoaded v s.kr)).setPc t (.incChecked v s.kr)).setPc t
        (.inside v) with kr := { s.kr with readers := s.kr.readers + 1 } }) ?_)), ?_, ?_⟩
    · simp only [machine, step, go, State.setPc, Function.update_self, if_neg hno]
    · simp only [machine, step, go, State.setPc, Function.update_self, if_true]
    · rw [CncrStr.incReaders]
      simp only
      rw [if_neg fun hyes => hno (hrefuses.mp hyes)]
      exact ⟨by rw [setKr_kr, hat.kr], (setKr_version _).trans hat.version⟩
    · rw [if_neg hno]
      exact Function.update_self _ _ _

theorem findEnd_kr {bls bls' : BitVec 32 → BlkLst} {fuel : ℕ} {cur prev en ver : BitVec 32}
    (h : CncrStr.findEnd ver fuel bls cur prev = some (en, bls')) (j : BitVec 32) :
    (bls' j).kr = (bls j).kr ∧ ((bls j).version = ver → (bls' j).version = ver) := by
  induction fuel generalizing bls cur prev with
  | zero => cases h
  | succ fuel ih =>
    rw [CncrStr.findEnd] at h
    split at h
    · obtain ⟨rfl, rfl⟩ := Prod.mk.inj (Option.some.inj h)
      exact ⟨rfl, id⟩
    · obtain ⟨hkr, hver⟩ := ih h
      by_cases hj : j = prev
      · subst hj
        rw [Function.update_self] at hkr hver
        exact ⟨hkr, fun _ => hver rfl⟩
      · rw [Function.update_of_ne hj] at hkr hver
        exact ⟨hkr, hver⟩

theorem doFree_at {m' : CncrStr} (hi : i ≠ LIST_END) (h : m.doFree i = some m') :
    (m'.s_bls i).kr = (m.s_bls i).kr ∧ (m'.s_bls i).version = 0 := by
  rw [CncrStr.doFree, Option.map_eq_some_iff] at h
  obtain ⟨⟨en, bls⟩, hfind, rfl⟩ := h
  obtain ⟨fuel, hfuel⟩ : ∃ n, 2 ^ 32 = n + 1 := ⟨2 ^ 32 - 1, rfl⟩
  rw [CncrStr.findEndSetVersion, hfuel, CncrStr.findEnd, if_neg hi] at hfind
  obtain ⟨hkr, hver⟩ := findEnd_kr hfind i
  rw [Function.update_self] at hkr hver
  exact ⟨hkr, hver rfl⟩

theorem dec_alone (hat : At s m i) (hi : i ≠ LIST_END) {del : Bool}
    (hpc : s.pc t = .decLoaded s.version del s.kr) {b : Bool} {m' : CncrStr}
    (hdec : m.decReadersOrDel i s.version del = some (b, m')) :
    ∃ as u, (machine τ version).Runs s as u ∧ At u m' i ∧ u.pc t = .idle ∧
      u.freed = s.freed + (if s.kr.last del then 1 else 0) := by
  have hlast : (if del then (m.s_bls i).kr.readers = 0 ∧ !(m.s_bls i).kr.isDeleted
      else (m.s_bls i).kr.readers = 1 ∧ (m.s_bls i).kr.isDeleted) ↔ s.kr.last del = true := by
    rw [KeyReaders.last, hat.kr]
    cases del <;> simp
  have hnext : (if del then { (m.s_bls i).kr with isDeleted := true }
      else { (m.s_bls i).kr with readers := (m.s_bls i).kr.readers - 1 }) = s.kr.next del := by
    rw [KeyReaders.next, hat.kr]
  obtain ⟨s1, hs1⟩ : ∃ s1, s1 = s.setPc t (.decChecked s.version del s.kr) := ⟨_, rfl⟩
  obtain ⟨s2, hs2⟩ : ∃ s2 : State τ, s2 = { s1.setPc t
    (if s.kr.last del then .freeing s.version else .idle) with kr := s.kr.next del } := ⟨_, rfl⟩
  have hstep1 : (machine τ version).step s (.go t) = some s1 := by
    simp only [machine, step, go, hpc, hs1, ne_eq, not_true_eq_false, if_false]
  have hstep2 : (machine τ version).step s1 (.go t) = some s2 := by
    simp only [machine, step, go, hs1, hs2, State.setPc, Function.update_self, if_true]
  have hkr2 : s2.kr = s.kr.next del := by rw [hs2]
  have hversion2 : s2.version = s.version := by rw [hs2, hs1]; rfl
  have hfreed2 : s2.freed = s.freed := by rw [hs2, hs1]; rfl
  rw [CncrStr.decReadersOrDel] at hdec
  simp only [hat.version, ne_eq, not_true_eq_false, if_false, hnext] at hdec
  by_cases hfree : s.kr.last del = true
  · rw [if_pos (hlast.mpr hfree), Option.map_eq_some_iff] at hdec
    obtain ⟨m1, hm1, heq⟩ := hdec
    obtain rfl := (Prod.mk.inj heq).2
    obtain ⟨hkr, hver⟩ := doFree_at hi hm1
    have hpc2 : s2.pc t = .freeing s.version := by
      rw [hs2, if_pos hfree]
      exact Function.update_self _ _ _
    refine ⟨[.go t, .go t, .go t], { s2.setPc t .idle with version := 0, freed := s2.freed + 1 },
      .next trivial hstep1 (.next trivial hstep2 (.one trivial ?_)), ?_, ?_, ?_⟩
    · simp only [machine, step, go, hpc2]
    · exact ⟨by rw [hkr, setKr_kr]; exact hkr2.symm, hver⟩
    · exact Function.update_self _ _ _
    · rw [if_pos hfree, hfreed2]
  · rw [if_neg fun hyes => hfree (hlast.mp hyes)] at hdec
    obtain rfl := (Prod.mk.inj (Option.some.inj hdec)).2
    refine ⟨[.go t, .go t], s2, .next trivial hstep1 (.one trivial hstep2), ?_, ?_, ?_⟩
    · exact ⟨by rw [setKr_kr, hkr2], by rw [setKr_version, hat.version, hversion2]⟩
    · rw [hs2, if_neg hfree]
      exact Function.update_self _ _ _
    · rw [if_neg hfree, hfreed2, Nat.add_zero]

end Alone

end Readers
end NvdlaVp.Simdb
