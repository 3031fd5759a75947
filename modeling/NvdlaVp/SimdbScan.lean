import NvdlaVp.SimdbCalls

set_option autoImplicit false

namespace NvdlaVp.Simdb
open ByteMemory BlockBytes ProbeTable

namespace CncrHsh

/-- The loop of `nxt`; `none` inside is `SLOT_END`. -/
def nxtLoop (h : CncrHsh) (stIdx : ℕ) : ℕ → ℕ → Option (Option ℕ)
  | 0, _ => none
  | fuel + 1, idx =>
    if (h.load idx).idx < DELETED then some (some idx)
    else
      let idx := (idx + 1) % h.m_sz
      if idx = stIdx then some none else nxtLoop h stIdx fuel idx

def nxt (h : CncrHsh) (stIdx : ℕ) : Option (Option ℕ) := nxtLoop h stIdx h.m_sz stIdx

end CncrHsh

/-- An object of the class `simdb`: the memory, and what the object has for itself. -/
structure SimdbObject where
  s_ch : CncrHsh
  m_nxtChIdx : ℕ
  m_blkCnt : ℕ

structure VerStr where
  ver : BitVec 32
  str : Str

def insertKey (nxt : VerStr) : List VerStr → List VerStr
  | [] => [nxt]
  | key :: keys =>
    if nxt.str < key.str then nxt :: key :: keys
    else if key.str < nxt.str then key :: insertKey nxt keys
    else key :: keys

def searched (m_blkCnt prev inxt : ℕ) : ℕ :=
  if prev + 1 < inxt then inxt - prev - 1 else m_blkCnt - prev + inxt

/-- `strlen(key.c_str())!=key.length()`. -/
def hasNul (key : Str) : Bool := decide (0 ∈ key)

namespace SimdbObject

def opened (h : CncrHsh) (blockCount : ℕ) : SimdbObject := ⟨h, 0, blockCount⟩

def nxt (d : SimdbObject) : Option (VerIdx × SimdbObject) :=
  (d.s_ch.nxt d.m_nxtChIdx).map fun chNxt =>
    match chNxt with
    | some chNxt => (d.s_ch.load chNxt, { d with m_nxtChIdx := (chNxt + 1) % d.m_blkCnt })
    | none => (empty_vi, { d with m_nxtChIdx := (d.m_nxtChIdx + 1) % d.m_blkCnt })

/-- The whole length and, where they are written, `out_klen` and `out_vlen`. -/
def len (d : SimdbObject) (idx : ℕ) (version : BitVec 32) : ℕ × Option ℕ × Option ℕ :=
  let vi := d.s_ch.load idx
  if DELETED ≤ vi.idx ∨ vi.version ≠ version then (0, none, none)
  else
    let (total_len, out_vlen) := d.s_ch.m_csp.len vi.idx vi.version
    if 0 < total_len then (total_len, some (CncrStr.sub32 total_len (out_vlen.getD 0)), out_vlen)
    else (0, none, out_vlen)

def getKey (d : SimdbObject) (idx : ℕ) (version : BitVec 32) (out_buf : Buffer) (klen : ℕ) :
    Option ((Bool × Buffer) × SimdbObject) :=
  if klen < 1 then some ((false, out_buf), d)
  else
    let vi := d.s_ch.load idx
    if DELETED ≤ vi.idx ∨ vi.version ≠ version then some ((false, out_buf), d)
    else
      (d.s_ch.m_csp.getKey vi.idx vi.version out_buf klen).map fun r =>
        ((decide (1 ≤ r.1.1), r.1.2), { d with s_ch := { d.s_ch with m_csp := r.2 } })

/-- The part of `nxtKey` that reads the key. A key with a zero in it is not taken for one. -/
def readKey (d : SimdbObject) (viNxt : VerIdx) : Option (Str × SimdbObject) :=
  if DELETED ≤ viNxt.idx then some ([], d)
  else
    let cur := d.s_ch.prevIdx d.m_nxtChIdx
    let lens := d.len cur viNxt.version
    if lens.1 = 0 then some ([], d)
    else
      let klen := lens.2.1.getD 0
      (d.getKey cur viNxt.version (fun _ => 0) klen).map fun r =>
        let key := (List.range klen).map r.1.2
        (if r.1.1 = false ∨ hasNul key then [] else key, r.2)

/-- The next key, which is empty for a slot without one, and what is written to `searched`. -/
def nxtKey (d : SimdbObject) : Option ((VerStr × ℕ) × SimdbObject) :=
  d.nxt.bind fun r =>
    (r.2.readKey r.1).map fun k =>
      ((⟨r.1.version, k.1⟩, searched d.m_blkCnt d.m_nxtChIdx r.2.m_nxtChIdx), k.2)

def keysLoop : ℕ → SimdbObject → List VerStr → ℕ → Option (List VerStr × SimdbObject)
  | 0, d, keys, srchCnt => if srchCnt < d.m_blkCnt then none else some (keys, d)
  | fuel + 1, d, keys, srchCnt =>
    if srchCnt < d.m_blkCnt then
      d.nxtKey.bind fun r =>
        keysLoop fuel r.2 (if 0 < r.1.1.str.length then insertKey r.1.1 keys else keys)
          (srchCnt + r.1.2)
    else some (keys, d)

/-- Each turn goes past one slot at least. -/
def getKeyStrs (d : SimdbObject) : Option (List VerStr × SimdbObject) := keysLoop d.m_blkCnt d [] 0

def del (d : SimdbObject) (key : Str) : Option (Bool × SimdbObject) :=
  (d.s_ch.delStr key).map fun r => (r.1, { d with s_ch := r.2 })

def delKeys : List VerStr → SimdbObject → Option SimdbObject
  | [], d => some d
  | key :: keys, d => (d.del key.str).bind fun r => delKeys keys r.2

/-- What an adaptor does with the memory before it begins. -/
def clear (d : SimdbObject) : Option SimdbObject := d.getKeyStrs.bind fun r => delKeys r.1 r.2

end SimdbObject

section Visits
variable {occ : ℕ → Bool} {m n p i j srch fuel : ℕ}

def found (occ : ℕ → Bool) (m p : ℕ) : Option ℕ := (walk m m p).find? occ

def after (m p : ℕ) : Option ℕ → ℕ
  | some j => (j + 1) % m
  | none => (p + 1) % m

theorem found_none (hp : p < m) (h : found occ m p = none) (hj : j < m) : occ j = false :=
  Bool.eq_false_iff.mpr (List.find?_eq_none.mp h j ((mem_walk hp).mpr hj))

theorem found_some (hp : p < m) (h : found occ m p = some j) : j < m ∧ occ j ∧
    (p ≤ j ∧ (∀ k, p ≤ k → k < j → occ k = false) ∨
      j < p ∧ ∀ k, p ≤ k → k < m → occ k = false) := by
  have hocc : occ j := List.find?_some h
  have hj := (mem_walk hp).mp (List.mem_of_find?_eq_some h)
  rw [found, walk_eq hp, List.find?_map, Option.map_eq_some_iff] at h
  obtain ⟨d, hd, rfl⟩ := h
  rw [List.find?_range_eq_some] at hd
  obtain ⟨_, hdm, hbefore⟩ := hd
  have hdm := List.mem_range.mp hdm
  have hfree : ∀ k, p ≤ k → k < p + d → k < m → occ k = false := by
    intro k hpk hk hkm
    have hnot := hbefore (k - p) (by omega)
    rwa [Function.comp_apply, show p + (k - p) = k by omega, Nat.mod_eq_of_lt hkm,
      Bool.not_eq_true'] at hnot
  refine ⟨hj, hocc, ?_⟩
  rcases Nat.lt_or_ge (p + d) m with hlt | hge
  · left
    rw [Nat.mod_eq_of_lt hlt]
    exact ⟨Nat.le_add_right p d, fun k hpk hk => hfree k hpk hk (by omega)⟩
  · right
    rw [Nat.mod_eq_sub_mod hge, Nat.mod_eq_of_lt (by omega)]
    exact ⟨by omega, fun k hpk hk => hfree k hpk (by omega) hk⟩

theorem after_lt (hp : p < m) {f : Option ℕ} : after m p f < m := by
  cases f with
  | none => exact Nat.mod_lt _ (by omega)
  | some j => exact Nat.mod_lt _ (by omega)

theorem searched_pos (hp : p < m) {q : ℕ} : 0 < searched m p q := by
  unfold searched
  split
  · omega
  · omega

def visits (occ : ℕ → Bool) (m : ℕ) : ℕ → ℕ → ℕ → List ℕ
  | 0, _, _ => []
  | fuel + 1, srch, p =>
    if srch < m then
      (found occ m p).toList ++ visits occ m fuel
        (srch + searched m p (after m p (found occ m p))) (after m p (found occ m p))
    else []

theorem mem_visits (hp : p < m) (h : j ∈ visits occ m fuel srch p) : j < m ∧ occ j := by
  induction fuel generalizing srch p with
  | zero => exact absurd h List.not_mem_nil
  | succ fuel ih =>
    rw [visits] at h
    split at h
    · rw [List.mem_append, Option.mem_toList] at h
      rcases h with hfound | hlater
      · obtain ⟨hj, hocc, _⟩ := found_some hp hfound
        exact ⟨hj, hocc⟩
      · exact ih (after_lt hp) hlater
    · exact absurd h List.not_mem_nil

/-- Each slot in use from `p` on that begins the memory or follows another is the last. -/
def Reached (occ : ℕ → Bool) (m p : ℕ) : Prop :=
  ∀ i < m, p ≤ i → occ i → i = 0 ∨ occ (i - 1) → ∀ j < m, i < j → occ j = false

instance (occ : ℕ → Bool) (m p : ℕ) : Decidable (Reached occ m p) :=
  Nat.decidableBallLT m fun i _ =>
    p ≤ i → occ i → i = 0 ∨ occ (i - 1) → ∀ j < m, i < j → occ j = false

theorem reached_next (hpi : p < i) (hbefore : ∀ k, p ≤ k → k < i → occ k = false) :
    Reached occ m p ↔ Reached occ m (i + 1) := by
  constructor
  · exact fun hreached k hk hik => hreached k hk (by omega)
  · intro hreached k hk hpk hocc hstop
    rcases Nat.lt_trichotomy k i with hlt | rfl | hgt
    · exact absurd ((hbefore k hpk hlt).symm.trans hocc) Bool.false_ne_true
    · rcases hstop with hzero | hprev
      · omega
      · exact absurd ((hbefore (k - 1) (by omega) (by omega)).symm.trans hprev)
          Bool.false_ne_true
    · exact hreached k hk hgt hocc hstop

/-- The search stops at a slot in use where it has begun: all slots count as searched. -/
theorem visits_stop (hp : p + 1 < m) (hsrch : srch < m) (hfound : found occ m p = some p) :
    visits occ m (fuel + 1) srch p = [p] := by
  rw [visits, if_pos hsrch, hfound, after, Nat.mod_eq_of_lt hp, searched, if_neg (by omega)]
  cases fuel with
  | zero => rfl
  | succ fuel =>
    rw [visits, if_neg (by omega)]
    rfl

theorem visits_go (hi : i + 1 < m) (hpi : p < i) (hsrch : srch < m)
    (hfound : found occ m p = some i) :
    visits occ m (fuel + 1) srch p = i :: visits occ m fuel (srch + (i - p)) (i + 1) := by
  rw [visits, if_pos hsrch, hfound, after, Nat.mod_eq_of_lt hi, searched, if_pos (by omega),
    show i + 1 - p - 1 = i - p by omega]
  rfl

theorem mem_visits_found (hsrch : srch < m) (hfound : found occ m p = some i) :
    i ∈ visits occ m (fuel + 1) srch p := by
  rw [visits, if_pos hsrch, hfound]
  exact List.mem_cons_self

/-- All slots in use are visited exactly if none is left after one that stops the search. -/
theorem visits_all (hp : p < m) (hprev : p = 0 ∨ occ (p - 1)) (hsrch : srch ≤ p)
    (hfuel : m ≤ srch + fuel) :
    (∀ j < m, p ≤ j → occ j → j ∈ visits occ m fuel srch p) ↔ Reached occ m p := by
  induction fuel generalizing srch p with
  | zero => omega
  | succ fuel ih =>
    by_cases hused : ∃ j < m, p ≤ j ∧ occ j
    · obtain ⟨j, hj, hpj, hoccj⟩ := hused
      obtain ⟨i, hfound⟩ : ∃ i, found occ m p = some i := by
        refine Option.ne_none_iff_exists'.mp fun hnone => ?_
        exact absurd ((found_none hp hnone hj).symm.trans hoccj) Bool.false_ne_true
      obtain ⟨hi, hocc, ⟨hpi, hbefore⟩ | ⟨_, hfree⟩⟩ := found_some hp hfound
      · have hmin : ∀ k, p ≤ k → occ k → i ≤ k := by
          intro k hpk hk
          by_contra hlt
          exact absurd ((hbefore k hpk (by omega)).symm.trans hk) Bool.false_ne_true
        rcases Nat.lt_or_ge (i + 1) m with hnext | hlast
        · rcases Nat.eq_or_lt_of_le hpi with rfl | hlt
          · rw [visits_stop hnext (by omega) hfound]
            constructor
            · intro hall k hk hpk hocck _ l hl hkl
              by_contra hne
              have hlp := hall l hl (by omega) (Bool.eq_true_of_not_eq_false hne)
              have heq := List.mem_singleton.mp hlp
              omega
            · intro hreached k hk hpk hocck
              by_contra hne
              have hkp : k ≠ p := fun heq => hne (List.mem_singleton.mpr heq)
              have hnone := hreached p hp (le_refl p) hocc hprev k hk (by omega)
              exact absurd (hnone.symm.trans hocck) Bool.false_ne_true
          · have htail : (∀ k < m, i + 1 ≤ k → occ k →
                k ∈ visits occ m fuel (srch + (i - p)) (i + 1)) ↔ Reached occ m (i + 1) :=
              ih hnext (.inr hocc) (by omega) (by omega)
            rw [visits_go hnext hlt (by omega) hfound, reached_next hlt hbefore, ← htail]
            constructor
            · intro hall k hk hik hocck
              exact (List.mem_cons.mp (hall k hk (by omega) hocck)).resolve_left (by omega)
            · intro hall k hk hpk hocck
              rw [List.mem_cons]
              rcases Nat.eq_or_lt_of_le (hmin k hpk hocck) with rfl | hik
              · exact .inl rfl
              · exact .inr (hall k hk hik hocck)
        · -- the last slot of the memory
          constructor
          · intro _ k hk hpk hocck _ l hl hkl
            have hle := hmin k hpk hocck
            omega
          · intro _ k hk hpk hocck
            obtain rfl : k = i := by
              have hle := hmin k hpk hocck
              omega
            exact mem_visits_found (by omega) hfound
      · exact absurd ((hfree j hpj hj).symm.trans hoccj) Bool.false_ne_true
    · constructor
      · exact fun _ k hk hpk hocck => absurd ⟨k, hk, hpk, hocck⟩ hused
      · exact fun _ k hk hpk hocck => absurd ⟨k, hk, hpk, hocck⟩ hused

end Visits

def CncrHsh.used (h : CncrHsh) (i : ℕ) : Bool := decide ((h.load i).idx < DELETED)

section Searching
variable {h : CncrHsh} {m n p i en st : ℕ}

theorem succ_mod_inj (hi : i < m) (hen : en < m) (h : (i + 1) % m = (en + 1) % m) : i = en :=
  Nat.ModEq.eq_of_lt_of_lt (Nat.ModEq.add_right_cancel' 1 h) hi hen

theorem prevIdx_lt (hm : h.m_sz = m) (hi : i < m) : h.prevIdx i < m := by
  rw [CncrHsh.prevIdx, hm]
  omega

theorem prevIdx_succ (hm : h.m_sz = m) (hmax : m < 2 ^ 32) (hi : i < m) :
    (h.prevIdx i + 1) % m = i := by
  rw [CncrHsh.prevIdx, hm]
  rcases Nat.eq_zero_or_pos i with rfl | hpos
  · rw [show min ((0 + 2 ^ 32 - 1) % 2 ^ 32) (m - 1) + 1 = m by omega, Nat.mod_self]
  · rw [show min ((i + 2 ^ 32 - 1) % 2 ^ 32) (m - 1) + 1 = i by omega, Nat.mod_eq_of_lt hi]

theorem nxtLoop_spec (hm : h.m_sz = m) (hi : i < m) (hen : en < m)
    (hends : Ends m (n + 1) i en) (hst : (en + 1) % m = st) :
    h.nxtLoop st (n + 1) i = some ((walk m (n + 1) i).find? h.used) := by
  induction n generalizing i with
  | zero =>
    obtain rfl := hends.one
    rw [CncrHsh.nxtLoop, walk, walk, List.find?_cons, CncrHsh.used]
    by_cases hused : (h.load i).idx < DELETED
    · simp only [hused, if_true, decide_true]
    · simp only [hused, if_false, decide_false, hm, hst, if_true, List.find?_nil]
  | succ n ih =>
    obtain ⟨hne, htail⟩ := hends.next
    have hnxt : (i + 1) % m < m := Nat.mod_lt _ (by omega)
    have hgo : (i + 1) % m ≠ st := fun heq => hne (succ_mod_inj hi hen (heq.trans hst.symm))
    rw [CncrHsh.nxtLoop, walk, List.find?_cons, CncrHsh.used]
    by_cases hused : (h.load i).idx < DELETED
    · simp only [hused, if_true, decide_true]
    · simp only [hused, if_false, decide_false, hm, hgo]
      exact ih hnxt htail

theorem nxt_spec (hm : h.m_sz = m) (hmax : m < 2 ^ 32) (hp : p < m) :
    h.nxt p = some (found h.used m p) := by
  have hends := ends_order hm (by omega) hmax hp
  obtain ⟨n, rfl⟩ : ∃ n, m = n + 1 := ⟨m - 1, by omega⟩
  rw [CncrHsh.nxt, hm]
  exact nxtLoop_spec hm hp (prevIdx_lt hm hp) hends (prevIdx_succ hm hmax hp)

theorem nxt_object (hm : h.m_sz = m) (hmax : m < 2 ^ 32) (hp : p < m) :
    (SimdbObject.mk h p m).nxt = some ((found h.used m p).elim empty_vi h.load,
      ⟨h, after m p (found h.used m p), m⟩) := by
  rw [SimdbObject.nxt, nxt_spec hm hmax hp]
  cases found h.used m p with
  | none => rfl
  | some j => rfl

end Searching

/-- The key in a slot found, unless it has a zero in it. -/
def text (h : CncrHsh) (f : Option ℕ) : Str :=
  ((f.bind h.keyAt).filter fun key => !hasNul key).getD []

section Keys
variable {size count : ℕ} {h : CncrHsh} {t : Table ℕ (Entry size)}
  {held : BitVec 32 → Option (Entry size)} {free : List (BitVec 32)} {p i : ℕ} {e : Entry size}

theorem Slots.used_iff (g : Geometry size count) (h' : Slots h count t held free) (hi : i < count) :
    h.used i ↔ ∃ e, t i = .full e := by
  rw [CncrHsh.used, decide_eq_true_eq]
  constructor
  · intro hlt
    refine Slot.of_not_isFree fun hfree => ?_
    have hle := h'.free_le hi hfree
    exact absurd hlt (BitVec.not_lt.mpr hle)
  · rintro ⟨e, he⟩
    exact h'.idx_lt g hi he

theorem Slots.keyAt (g : Geometry size count) (h' : Slots h count t held free) (hi : i < count)
    (he : t i = .full e) : h.keyAt i = some e.key := by
  rw [keyAt_slots g h' hi, he, Slot.holds_full]

theorem len_at (h' : Slots h count t held free) (hi : i < count) (he : t i = .full e)
    (g : Geometry size count) : (SimdbObject.mk h p count).len i (h.load i).version =
      (e.key.length + e.value.length, some e.key.length, some e.value.length) := by
  have hlt := h'.idx_lt g hi he
  have hstands := h'.stands i hi
  rw [he] at hstands
  obtain ⟨hheld, hver, _⟩ := hstands
  have hpos := e.fits.value_pos
  have hlength := e.fits.length_lt
  rw [SimdbObject.len]
  simp only [ne_eq, not_true_eq_false, or_false, BitVec.not_le.mpr hlt, if_false, hver,
    len_held (h'.stored.holds _ e hheld), Option.getD_some]
  rw [if_pos (by omega), Nat.add_comm, sub32_add _ _ (by omega)]

theorem getKey_at (h' : Slots h count t held free) (hi : i < count) (he : t i = .full e)
    (g : Geometry size count) (out : Buffer) :
    (SimdbObject.mk h p count).getKey i (h.load i).version out e.key.length =
      some ((true, out.put 0 (bytesOf e.key) e.key.length), ⟨h, p, count⟩) := by
  have hlt := h'.idx_lt g hi he
  have hstands := h'.stands i hi
  rw [he] at hstands
  obtain ⟨hheld, hver, _⟩ := hstands
  have hpos := List.length_pos_iff.mpr e.key_ne
  rw [SimdbObject.getKey, if_neg (by omega)]
  simp only [ne_eq, not_true_eq_false, or_false, BitVec.not_le.mpr hlt, if_false, hver,
    getKey_held (h'.stored.holds _ e hheld) (le_refl _), Option.map_some]
  rw [decide_eq_true (show 1 ≤ e.key.length from hpos)]

theorem prevIdx_after (hm : h.m_sz = count) (hmax : count < 2 ^ 32) (hi : i < count) :
    h.prevIdx ((i + 1) % count) = i := by
  have hnxt : (i + 1) % count < count := Nat.mod_lt _ (by omega)
  exact succ_mod_inj (prevIdx_lt hm hnxt) hi (prevIdx_succ hm hmax hnxt)

theorem readKey_used {d : SimdbObject} {vi : VerIdx} {total_len klen vlen : ℕ} {out : Buffer}
    (hused : ¬ DELETED ≤ vi.idx)
    (hlen : d.len (d.s_ch.prevIdx d.m_nxtChIdx) vi.version = (total_len, some klen, some vlen))
    (hpos : total_len ≠ 0) (hkey : d.getKey (d.s_ch.prevIdx d.m_nxtChIdx) vi.version
      (fun _ => 0) klen = some ((true, out), d)) : d.readKey vi =
      some (if hasNul ((List.range klen).map out) then [] else (List.range klen).map out, d) := by
  rw [SimdbObject.readKey, if_neg hused]
  simp only [hlen, hpos, if_false, Option.getD_some, hkey, Option.map_some, Bool.true_eq_false,
    false_or]

theorem text_full (g : Geometry size count) (h' : Slots h count t held free) (hi : i < count)
    (he : t i = .full e) : text h (some i) = if hasNul e.key then [] else e.key := by
  rw [text, Option.bind_some, h'.keyAt g hi he, Option.filter_some]
  by_cases hnul : hasNul e.key
  · rw [if_pos hnul, hnul, Bool.not_true, if_neg Bool.false_ne_true, Option.getD_none]
  · rw [if_neg hnul, Bool.eq_false_iff.mpr hnul, Bool.not_false, if_pos rfl, Option.getD_some]

theorem nxtKey_spec (g : Geometry size count) (h' : Slots h count t held free) (hp : p < count) :
    ∃ ver, (SimdbObject.mk h p count).nxtKey =
      some ((⟨ver, text h (found h.used count p)⟩,
        searched count p (after count p (found h.used count p))),
        ⟨h, after count p (found h.used count p), count⟩) := by
  have hmax : count < 2 ^ 32 := Nat.lt_of_lt_of_le g.count_lt (Nat.sub_le _ _)
  rw [SimdbObject.nxtKey, nxt_object h'.sz hmax hp, Option.bind_some]
  cases hfound : found h.used count p with
  | none =>
    have hend : DELETED ≤ empty_vi.idx := by decide
    refine ⟨empty_vi.version, ?_⟩
    rw [Option.elim_none, SimdbObject.readKey, if_pos hend, text]
    rfl
  | some i =>
    obtain ⟨hi, hused, _⟩ := found_some hp hfound
    obtain ⟨e, he⟩ := (h'.used_iff g hi).mp hused
    have hlt := h'.idx_lt g hi he
    have hpos := e.fits.value_pos
    have hcur : h.prevIdx (after count p (some i)) = i := prevIdx_after h'.sz hmax hi
    refine ⟨(h.load i).version, ?_⟩
    rw [Option.elim_some, readKey_used (BitVec.not_le.mpr hlt)
      (by rw [hcur]; exact len_at h' hi he g) (by omega)
      (by rw [hcur]; exact getKey_at h' hi he g _), map_range_put, text_full g h' hi he,
      Option.map_some]

theorem mem_insertKey {nxt : VerStr} {keys : List VerStr} {k : Str} :
    k ∈ (insertKey nxt keys).map VerStr.str ↔ k = nxt.str ∨ k ∈ keys.map VerStr.str := by
  induction keys with
  | nil => rw [insertKey, List.map_singleton, List.mem_singleton, List.map_nil,
      or_iff_left List.not_mem_nil]
  | cons key keys ih =>
    rw [insertKey]
    split
    · rw [List.map_cons, List.mem_cons]
    · split
      · rw [List.map_cons, List.mem_cons, ih, List.map_cons, List.mem_cons, or_left_comm]
      · rename_i hlt hgt
        have heq : nxt.str = key.str := List.le_antisymm hgt hlt
        rw [heq, List.map_cons, List.mem_cons, ← or_assoc, or_self]

theorem mem_added {nxt : VerStr} {keys : List VerStr} {k : Str} :
    k ∈ (if 0 < nxt.str.length then insertKey nxt keys else keys).map VerStr.str ↔
      k ∈ keys.map VerStr.str ∨ k ≠ [] ∧ nxt.str = k := by
  split
  · rename_i hpos
    rw [mem_insertKey, or_comm, eq_comm]
    refine or_congr_right ⟨fun heq => ⟨?_, heq⟩, fun h => h.2⟩
    rw [← heq]
    exact List.length_pos_iff.mp hpos
  · rename_i hzero
    have hnil : nxt.str = [] := List.eq_nil_of_length_eq_zero (by omega)
    rw [hnil]
    exact ⟨.inl, fun h => h.resolve_right fun hk => hk.1 hk.2.symm⟩

theorem keysLoop_spec (g : Geometry size count) (h' : Slots h count t held free) {fuel srch : ℕ}
    (hp : p < count) (hfuel : count ≤ srch + fuel) (keys : List VerStr) :
    ∃ keys' p', SimdbObject.keysLoop fuel ⟨h, p, count⟩ keys srch =
        some (keys', ⟨h, p', count⟩) ∧
      ∀ k, k ∈ keys'.map VerStr.str ↔ k ∈ keys.map VerStr.str ∨
        k ≠ [] ∧ ∃ j ∈ visits h.used count fuel srch p, text h (some j) = k := by
  induction fuel generalizing srch p keys with
  | zero =>
    refine ⟨keys, p, ?_, fun k => ?_⟩
    · rw [SimdbObject.keysLoop, if_neg (show ¬ srch < count by omega)]
    · simp [visits]
  | succ fuel ih =>
    by_cases hgo : srch < count
    · obtain ⟨ver, hnxt⟩ := nxtKey_spec g h' hp
      have hpos := searched_pos hp (q := after count p (found h.used count p))
      obtain ⟨keys', p', hloop, hmem⟩ := ih (after_lt hp)
        (show count ≤ srch + searched count p (after count p (found h.used count p)) + fuel by
          omega)
        (if 0 < (VerStr.mk ver (text h (found h.used count p))).str.length then
          insertKey ⟨ver, text h (found h.used count p)⟩ keys else keys)
      refine ⟨keys', p', ?_, fun k => ?_⟩
      · rw [SimdbObject.keysLoop, if_pos hgo, hnxt, Option.bind_some]
        exact hloop
      · rw [hmem, mem_added, visits, if_pos hgo, or_assoc]
        refine or_congr_right ?_
        cases found h.used count p with
        | none =>
          have hnil : ∀ k ≠ [], text h none ≠ k := fun k hk heq => hk heq.symm
          rw [Option.toList_none, List.nil_append]
          exact ⟨fun h => h.resolve_left fun hk => hnil k hk.1 hk.2, .inr⟩
        | some j =>
          rw [Option.toList_some, List.singleton_append, ← and_or_left]
          simp only [List.mem_cons, exists_eq_or_imp]
    · refine ⟨keys, p, ?_, fun k => ?_⟩
      · rw [SimdbObject.keysLoop, if_neg hgo]
      · rw [visits, if_neg hgo]
        simp

end Keys

end NvdlaVp.Simdb
