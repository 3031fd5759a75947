import NvdlaVp.CosimBridge
import NvdlaVp.CText

set_option autoImplicit false

namespace NvdlaVp.CosimBridge
open KeyValueStore Gsgp CText

/-- The constructor, with the environment that `getenv` reads. -/
def Gsgp2cosim.new (base_addr addr_offset : BitVec 64) (getenv : String → Option String) :
    Gsgp2cosim where
  base_addr := base_addr
  addr_offset := addr_offset
  shm_timeout := match getenv "COSIM_SHM_TIMEOUT_IN_NS" with
    | none => 0xFFFFFFFF
    | some timeout_c => (strtoul timeout_c.toList).setWidth 32

def State.showUp (s : State) (ch : Channel) (up : Option Message) : State :=
  { s with store := match up with
      | some m => s.store.put (.up ch) m
      | none => s.store.del (.up ch) }

/-- The loop after the put, with the number of polls it makes; `up i` is what the peer
    shows at the poll that follows `i` waits, and `fuel` bounds the polls. -/
def waitLoop (g : Gsgp2cosim) (ch : Channel) (up : ℕ → Option Message) :
    ℕ → ℕ → State → Option (ℕ × State)
  | 0, _, _ => none
  | fuel + 1, i, s =>
    (bridgeStep g (s.showUp ch (up i))).bind fun polled =>
      match polled.pc with
      | .waiting _ _ =>
        (bridgeStep g polled).bind fun next =>
          match next.pc with
          | .poll _ _ => waitLoop g ch up fuel (i + 1) next
          | _ => some (i + 1, next)
      | _ => some (i + 1, polled)

/-- A transaction from its put on: the polls it makes, and what it returns. -/
def transact (g : Gsgp2cosim) (c : Call) (up : ℕ → Option Message) (fuel : ℕ) (s : State) :
    Option (ℕ × Returned) :=
  (bridgeStep g s).bind fun put =>
    (waitLoop g c.channel up fuel 0 put).bind fun (polls, left) =>
      (bridgeStep g left).bind fun done => done.returned.getLast?.map fun r => (polls, r)

def arrives (m : Message) (a : ℕ) : ℕ → Option Message := fun i => if a ≤ i then some m else none

def Call.answered (c : Call) (m : Message) : Returned :=
  ⟨c.ticket, true, c.req.onResponse m.payload⟩

def Call.timedOut (c : Call) : Returned := ⟨c.ticket, false, c.req.mData⟩

/-- Within `N + 1` polls the transaction returns the response, or the timeout if the
    response shows after more than `N` nanoseconds. -/
def Honoured (g : Gsgp2cosim) (N a : ℕ) : Prop :=
  ∀ s c m, s.pc = .putDn c → ∃ polls ≤ N + 1, transact g c (arrives m a) (N + 1) s =
    some (polls, if a ≤ N then c.answered m else c.timedOut)

/-- The transaction returns the response; its counter allows for `shm_timeout + 1` polls. -/
def Completes (g : Gsgp2cosim) (a : ℕ) : Prop :=
  ∀ s c m, s.pc = .putDn c → ∃ polls,
    transact g c (arrives m a) (g.shm_timeout.toNat + 1) s = some (polls, c.answered m)

variable {g : Gsgp2cosim} {c : Call} {m : Message}

theorem polled_found {s : State} {t : BitVec 32} (hpc : s.pc = .poll c t) :
    bridgeStep g (s.showUp c.channel (some m)) =
      some { s.showUp c.channel (some m) with
        pc := .delUp c true (c.req.onResponse m.payload) } := by
  simp [bridgeStep, State.showUp, hpc]

theorem polled_empty {s : State} {t : BitVec 32} (hpc : s.pc = .poll c t) :
    bridgeStep g (s.showUp c.channel none) =
      some { s.showUp c.channel none with pc := .waiting c t } := by
  simp [bridgeStep, State.showUp, hpc]

theorem waitLoop_arrives {a i fuel : ℕ} {t : BitVec 32} {s : State} (hpc : s.pc = .poll c t)
    (hi : i ≤ a) (hfuel : t.toNat < fuel) :
    ∃ u, waitLoop g c.channel (arrives m a) fuel i s =
        some (i + min (a - i) t.toNat + 1, u) ∧
      u.pc = if a ≤ i + t.toNat then .delUp c true (c.req.onResponse m.payload)
        else .delUp c false c.req.mData := by
  induction fuel generalizing i t s with
  | zero => omega
  | succ fuel ih =>
    by_cases ha : a ≤ i
    · have hshow : arrives m a i = some m := if_pos ha
      refine ⟨{ s.showUp c.channel (some m) with
        pc := .delUp c true (c.req.onResponse m.payload) }, ?_, ?_⟩
      · simp only [waitLoop, hshow, polled_found hpc, Option.bind_some]
        rw [Nat.sub_eq_zero_of_le ha, Nat.zero_min, Nat.add_zero]
      · rw [if_pos (by omega)]
    · have hshow : arrives m a i = none := if_neg ha
      simp only [waitLoop, hshow, polled_empty hpc, Option.bind_some]
      by_cases ht : t = 0
      · subst ht
        refine ⟨_, by simp [bridgeStep]; rfl, ?_⟩
        rw [if_neg (by simpa using ha)]
      · have htpos : 0 < t.toNat := by
          rw [Nat.pos_iff_ne_zero]
          exact fun h0 => ht (BitVec.eq_of_toNat_eq (by simpa using h0))
        have hless : (t - 1).toNat = t.toNat - 1 := by
          have hle : (1 : BitVec 32) ≤ t := BitVec.le_def.mpr htpos
          rw [BitVec.toNat_sub_of_le hle]
          rfl
        obtain ⟨u, hloop, hu⟩ := ih (i := i + 1) (t := t - 1)
          (s := { s.showUp c.channel none with pc := .poll c (t - 1) }) rfl (by omega) (by omega)
        refine ⟨u, ?_, ?_⟩
        · simp only [bridgeStep, ht, if_false, Option.bind_some, hloop]
          rw [hless,
            show i + 1 + min (a - (i + 1)) (t.toNat - 1) = i + min (a - i) t.toNat by omega]
        · rw [hu, hless, show i + 1 + (t.toNat - 1) = i + t.toNat by omega]

theorem transact_arrives (g : Gsgp2cosim) (m : Message) {a fuel : ℕ} {s : State}
    (hpc : s.pc = .putDn c) (hfuel : g.shm_timeout.toNat < fuel) :
    transact g c (arrives m a) fuel s = some (min a g.shm_timeout.toNat + 1,
      if a ≤ g.shm_timeout.toNat then c.answered m else c.timedOut) := by
  obtain ⟨u, hloop, hu⟩ := waitLoop_arrives (g := g) (m := m) (a := a) (i := 0)
    (t := g.shm_timeout)
    (s := { s with
      pc := .poll c g.shm_timeout
      store := s.store.put (.dn c.channel) ⟨c.tp, c.ticket⟩ })
    rfl (Nat.zero_le a) hfuel
  have hput : bridgeStep g s = some { s with
      pc := .poll c g.shm_timeout
      store := s.store.put (.dn c.channel) ⟨c.tp, c.ticket⟩ } := by
    simp only [bridgeStep, hpc]
  simp only [transact, hput, hloop, Option.bind_some, Nat.sub_zero, Nat.zero_add]
  rw [Nat.zero_add] at hu
  split at hu <;> rename_i ha <;> simp [bridgeStep, hu, ha, Call.answered, Call.timedOut]

def putting : Call := ⟨⟨.rd, 0, 0⟩, ⟨0, 0⟩, 0⟩

theorem transact_putting (g : Gsgp2cosim) {a fuel : ℕ} (hfuel : g.shm_timeout.toNat < fuel) :
    transact g putting (arrives m a) fuel { State.init with pc := .putDn putting } =
      some (min a g.shm_timeout.toNat + 1,
        if a ≤ g.shm_timeout.toNat then putting.answered m else putting.timedOut) :=
  transact_arrives g m rfl hfuel

theorem answered_ne_timedOut (c : Call) (m : Message) : c.answered m ≠ c.timedOut := by
  intro h
  exact absurd (congrArg Returned.acked h) (by simp [Call.answered, Call.timedOut])

theorem completes_iff (g : Gsgp2cosim) (a : ℕ) : Completes g a ↔ a ≤ g.shm_timeout.toNat := by
  constructor
  · intro h
    obtain ⟨polls, heq⟩ := h { State.init with pc := .putDn putting } putting ⟨⟨0, 0⟩, 0⟩ rfl
    rw [transact_putting g (Nat.lt_succ_self _)] at heq
    by_contra ha
    rw [if_neg ha] at heq
    exact answered_ne_timedOut _ _ (Prod.mk.inj (Option.some.inj heq)).2.symm
  · intro ha s c m hpc
    exact ⟨_, by rw [transact_arrives g m hpc (Nat.lt_succ_self _), if_pos ha]⟩

theorem honoured_iff {N a : ℕ} (h : g.shm_timeout.toNat ≤ N) :
    Honoured g N a ↔ (a ≤ N → a ≤ g.shm_timeout.toNat) := by
  constructor
  · intro hall ha
    obtain ⟨polls, _, heq⟩ := hall { State.init with pc := .putDn putting } putting
      ⟨⟨0, 0⟩, 0⟩ rfl
    rw [transact_putting g (by omega), if_pos ha] at heq
    by_contra hT
    rw [if_neg hT] at heq
    exact answered_ne_timedOut _ _ (Prod.mk.inj (Option.some.inj heq)).2.symm
  · intro ha s c m hpc
    refine ⟨min a g.shm_timeout.toNat + 1, by omega, ?_⟩
    rw [transact_arrives g m hpc (by omega)]
    by_cases haN : a ≤ N
    · rw [if_pos haN, if_pos (ha haN)]
    · rw [if_neg haN, if_neg (by omega)]

section Configured
variable {getenv : String → Option String} {N : ℕ}

def Configured (getenv : String → Option String) (N : ℕ) : Prop :=
  getenv "COSIM_SHM_TIMEOUT_IN_NS" = some (Nat.repr N)

theorem shm_timeout_configured (base_addr addr_offset : BitVec 64) (h : Configured getenv N)
    (hN : N < 2 ^ 64) :
    (Gsgp2cosim.new base_addr addr_offset getenv).shm_timeout.toNat = N % 2 ^ 32 := by
  have hget : getenv "COSIM_SHM_TIMEOUT_IN_NS" = some (Nat.repr N) := h
  simp only [Gsgp2cosim.new, hget, Nat.toList_repr, strtoul_toDigits hN, BitVec.toNat_setWidth,
    BitVec.toNat_ofNat]
  omega

/-- The timeout is honoured for every arrival if and only if it fits 32 bits; for one
    arrival the rest of `N` decides, which also orders the transactions that complete. -/
theorem timeout_honoured_exactly (base_addr addr_offset : BitVec 64)
    (h : Configured getenv N) (hN : N < 2 ^ 64) :
    ((∀ a, Honoured (.new base_addr addr_offset getenv) N a) ↔ N < 2 ^ 32) ∧
    (∀ a, Honoured (.new base_addr addr_offset getenv) N a ↔ (a ≤ N → a ≤ N % 2 ^ 32)) ∧
    ∀ getenv' N', Configured getenv' N' → N' < 2 ^ 64 →
      ((∀ a, Completes (.new base_addr addr_offset getenv) a →
        Completes (.new base_addr addr_offset getenv') a) ↔ N % 2 ^ 32 ≤ N' % 2 ^ 32) := by
  have hT := shm_timeout_configured base_addr addr_offset h hN
  have hone (a : ℕ) : Honoured (.new base_addr addr_offset getenv) N a ↔
      (a ≤ N → a ≤ N % 2 ^ 32) := by
    rw [honoured_iff (by rw [hT]; exact Nat.mod_le _ _), hT]
  refine ⟨?_, hone, ?_⟩
  · constructor
    · intro hall
      have hself := (hone N).mp (hall N) le_rfl
      have hlt := Nat.mod_lt N (by decide : 2 ^ 32 > 0)
      omega
    · intro hlt a
      rw [hone, Nat.mod_eq_of_lt hlt]
      exact id
  · intro getenv' N' h' hN'
    simp only [completes_iff, hT, shm_timeout_configured base_addr addr_offset h' hN']
    exact ⟨fun hall => hall _ le_rfl, fun hle a ha => ha.trans hle⟩

end Configured

def setTimeout (N : ℕ) : String → Option String :=
  fun name => if name = "COSIM_SHM_TIMEOUT_IN_NS" then some (Nat.repr N) else none

theorem configured_setTimeout (N : ℕ) : Configured (setTimeout N) N := if_pos rfl

theorem timeout_honoured_exactly_million :
    Honoured (.new 0x10200000 0 (setTimeout 1000000)) 1000000 999999 :=
  (timeout_honoured_exactly 0x10200000 0 (configured_setTimeout 1000000) (by decide)).1.mpr
    (by decide) 999999

theorem large_timeout_cut : ¬ ∀ N < 2 ^ 64, ∀ a,
    Honoured (.new 0x10200000 0 (setTimeout N)) N a := by
  intro hall
  have hT := shm_timeout_configured 0x10200000 0 (configured_setTimeout (2 ^ 32)) (by decide)
  have h := (honoured_iff (a := 1) (by rw [hT]; decide)).mp (hall (2 ^ 32) (by decide) 1)
    (by decide)
  rw [hT] at h
  exact absurd h (by decide)

end NvdlaVp.CosimBridge
