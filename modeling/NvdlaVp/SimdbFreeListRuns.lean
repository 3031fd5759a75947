import NvdlaVp.SimdbFreeList

set_option autoImplicit false

namespace NvdlaVp.Simdb.FreeList
open MachineRuns IndexChain

/-- What the list is for: a stack that is changed in one step. -/
structure Pool (τ ι : Type*) where
  stack : List ι
  log : List (Event τ ι)

def Pool.step {τ ι : Type*} [DecidableEq ι] (p : Pool τ ι) (e : Event τ ι) :
    Option (Pool τ ι) :=
  match e with
  | .took _ result =>
    if result = p.stack.head? then some ⟨p.stack.tail, p.log ++ [e]⟩ else none
  | .gave _ blocks => some ⟨blocks ++ p.stack, p.log ++ [e]⟩

theorem Pool.step_took {τ ι : Type*} [DecidableEq ι] {p : Pool τ ι} {result : Option ι}
    (h : p.stack.head? = result) (t : τ) :
    p.step (.took t result) = some ⟨p.stack.tail, p.log ++ [.took t result]⟩ :=
  if_pos h.symm

def pool (τ ι : Type*) [DecidableEq ι] (stack : List ι) : Machine (Pool τ ι) (Event τ ι) :=
  ⟨⟨stack, []⟩, Pool.step⟩

def blocks (size : ℕ) : List (BitVec 32) := (List.range size).map (BitVec.ofNat 32)

inductive Advanced (v : BitVec 32) : ℕ → BitVec 32 → Prop where
  | refl : Advanced v 0 v
  | nxt {d : ℕ} {w : BitVec 32} (h : Advanced v d w) : Advanced v (d + 1) (incVersion w)
  | free {d : ℕ} {w : BitVec 32} (h : Advanced v d w) : Advanced v (d + 1) (w + 1)

/-- The version runs up by one, and past its end it has lost one value or none. -/
theorem Advanced.range {v w : BitVec 32} {d : ℕ} (h : Advanced v d w) (hd : d < 2 ^ 32 - 1) :
    w.toNat = v.toNat + d ∨ 2 ^ 32 ≤ v.toNat + d ∧
      (w.toNat = v.toNat + d - 2 ^ 32 ∨ w.toNat = v.toNat + d - 2 ^ 32 + 1) := by
  have hv := v.isLt
  induction h with
  | refl => exact .inl rfl
  | @nxt d w _ ih =>
    have hw := w.isLt
    have hrange := ih (by omega)
    unfold incVersion NXT_VER_SPECIAL
    split
    · rename_i hspecial
      have hmax : w.toNat = 2 ^ 32 - 1 := congrArg BitVec.toNat hspecial
      have hone : (1 : BitVec 32).toNat = 1 := rfl
      omega
    · rename_i hspecial
      have hmax : w.toNat ≠ 2 ^ 32 - 1 := fun h => hspecial (BitVec.eq_of_toNat_eq h)
      have hinc : (w + 1).toNat = w.toNat + 1 := by
        rw [BitVec.toNat_add]
        exact Nat.mod_eq_of_lt (by rw [show (1 : BitVec 32).toNat = 1 from rfl]; omega)
      omega
  | @free d w _ ih =>
    have hw := w.isLt
    have hrange := ih (by omega)
    have hinc : (w + 1).toNat = (w.toNat + 1) % 2 ^ 32 := by
      rw [BitVec.toNat_add]
      rfl
    omega

theorem Advanced.ne {v w : BitVec 32} {d : ℕ} (h : Advanced v d w) (hpos : 0 < d)
    (hd : d < 2 ^ 32 - 1) : w ≠ v := by
  have hrange := h.range hd
  have hv := v.isLt
  rintro rfl
  omega

variable {τ : Type*} {s u : State τ} {size : ℕ} {t t' : τ}
  {stack : List (BitVec 32)}

structure Seen (s : State τ) (cur : Head) (seen : ℕ) : Prop where
  le : seen ≤ s.changes
  same : s.changes = seen → s.lst.s_h = cur
  advanced : Advanced cur.ver (s.changes - seen) s.lst.s_h.ver

theorem Seen.now (s : State τ) : Seen s s.lst.s_h s.changes := by
  refine ⟨le_refl _, fun _ => rfl, ?_⟩
  rw [Nat.sub_self]
  exact .refl

/-- An exchange that succeeds in time finds the word unchanged. -/
theorem Seen.unchanged {cur : Head} {seen : ℕ} (h : Seen s cur seen) (hcur : s.lst.s_h = cur)
    (hprompt : s.changes - seen < 2 ^ 32 - 1) : s.changes = seen := by
  have hle := h.le
  by_contra hne
  exact h.advanced.ne (by omega) hprompt (by rw [hcur])

/-- The blocks that a thread gives back, with the links of the list through them. -/
structure Gift (s : State τ) (t : τ) (st : BitVec 32) (mid : List (BitVec 32))
    (en : BitVec 32) : Prop extends Gives s t st mid en where
  chain : Chain s.lst.s_lv st mid en

def PcOk (s : State τ) (t : τ) : Pc → Prop
  | .idle => True
  | .nxtLoaded cur seen => Seen s cur seen
  | .nxtRead cur nxt seen => Seen s cur seen ∧ cur.idx ≠ LIST_END ∧
    (s.changes = seen → nxt = s.lst.s_lv cur.idx)
  | .freeLoaded _ st mid en => Gift s t st mid en
  | .freeLinked cur st mid en => Gift s t st mid en ∧ s.lst.s_lv en = cur.idx

structure Invariant (size : ℕ) (s : State τ) (stack : List (BitVec 32)) : Prop where
  chain : Chain s.lst.s_lv s.lst.s_h.idx stack LIST_END
  nodup : stack.Nodup
  free : ∀ i, i ∈ stack ↔ i.toNat < size ∧ s.owner i = none
  owned : ∀ i t, s.owner i = some t → i.toNat < size
  pcs : ∀ t, PcOk s t (s.pc t)

theorem not_mem_end (hsize : size < 2 ^ 32) (h : Invariant size s stack) :
    LIST_END ∉ stack := by
  intro hmem
  have hlt := ((h.free _).mp hmem).1
  have hend : LIST_END.toNat = 2 ^ 32 - 1 := rfl
  omega

theorem Invariant.head_free (h : Invariant size s stack) (hend : s.lst.s_h.idx ≠ LIST_END) :
    ∃ rest, stack = s.lst.s_h.idx :: rest ∧
      Chain s.lst.s_lv (s.lst.s_lv s.lst.s_h.idx) rest LIST_END := by
  have hchain := h.chain
  cases hstack : stack with
  | nil =>
    rw [hstack] at hchain
    exact absurd hchain hend
  | cons i rest =>
    rw [hstack] at hchain
    obtain ⟨hi, hrest⟩ := hchain
    exact ⟨rest, by rw [hi], hi ▸ hrest⟩

theorem Invariant.head?_eq (hsize : size < 2 ^ 32) (h : Invariant size s stack) :
    stack.head? = if s.lst.s_h.idx = LIST_END then none else some s.lst.s_h.idx := by
  have hchain := h.chain
  cases hstack : stack with
  | nil =>
    rw [hstack] at hchain
    have hend : s.lst.s_h.idx = LIST_END := hchain
    rw [if_pos hend]
    rfl
  | cons i rest =>
    have hne : i ≠ LIST_END := fun h' => not_mem_end hsize h (hstack ▸ h' ▸ List.mem_cons_self)
    rw [hstack] at hchain
    rw [hchain.1, if_neg hne]
    rfl

section Frames

theorem pcs_of [DecidableEq τ] {p : Pc} (hpc : u.pc = Function.update s.pc t p) (hp : PcOk u t p)
    (hothers : ∀ t', t' ≠ t → PcOk u t' (s.pc t')) (t' : τ) : PcOk u t' (u.pc t') := by
  rw [hpc]
  by_cases ht : t' = t
  · subst ht
    rwa [Function.update_self]
  · rw [Function.update_of_ne ht]
    exact hothers t' ht

theorem PcOk.same {p : Pc} (h : PcOk s t p) (hlst : u.lst = s.lst)
    (howner : ∀ i, s.owner i = some t → u.owner i = some t)
    (hchanges : u.changes = s.changes) : PcOk u t p := by
  cases p with
  | idle => trivial
  | nxtLoaded cur seen =>
    obtain ⟨hle, hsame, hadv⟩ := h
    exact ⟨hchanges ▸ hle, by rwa [hchanges, hlst], by rwa [hchanges, hlst]⟩
  | nxtRead cur nxt seen =>
    obtain ⟨⟨hle, hsame, hadv⟩, hend, hnxt⟩ := h
    exact ⟨⟨hchanges ▸ hle, by rwa [hchanges, hlst], by rwa [hchanges, hlst]⟩, hend,
      by rwa [hchanges, hlst]⟩
  | freeLoaded cur st mid en =>
    obtain ⟨⟨hnodup, hfirst, howned⟩, hchain⟩ := h
    exact ⟨⟨hnodup, hfirst, fun i hi => howner i (howned i hi)⟩, by rwa [hlst]⟩
  | freeLinked cur st mid en =>
    obtain ⟨⟨⟨hnodup, hfirst, howned⟩, hchain⟩, hlink⟩ := h
    exact ⟨⟨⟨hnodup, hfirst, fun i hi => howner i (howned i hi)⟩, by rwa [hlst]⟩, by rwa [hlst]⟩

theorem PcOk.exchanged {p : Pc} (h : PcOk s t p) (hlinks : u.lst.s_lv = s.lst.s_lv)
    (hchanges : u.changes = s.changes + 1)
    (hver : ∀ v d, Advanced v d s.lst.s_h.ver → Advanced v (d + 1) u.lst.s_h.ver)
    (howner : ∀ i, s.owner i = some t → u.owner i = some t) : PcOk u t p := by
  have hseen : ∀ {cur seen}, Seen s cur seen → Seen u cur seen := by
    intro cur seen hseen
    have hle := hseen.le
    refine ⟨by omega, fun heq => by omega, ?_⟩
    rw [hchanges, show s.changes + 1 - seen = s.changes - seen + 1 by omega]
    exact hver _ _ hseen.advanced
  have hgift : ∀ {st mid en}, Gift s t st mid en → Gift u t st mid en := by
    rintro st mid en ⟨⟨hnodup, hfirst, howned⟩, hchain⟩
    exact ⟨⟨hnodup, hfirst, fun i hi => howner i (howned i hi)⟩, by rwa [hlinks]⟩
  cases p with
  | idle => trivial
  | nxtLoaded cur seen => exact hseen h
  | nxtRead cur nxt seen =>
    obtain ⟨hs, hend, _⟩ := h
    have hle := hs.le
    exact ⟨hseen hs, hend, fun heq => by omega⟩
  | freeLoaded cur st mid en => exact hgift h
  | freeLinked cur st mid en =>
    obtain ⟨hg, hlink⟩ := h
    exact ⟨hgift hg, by rwa [hlinks]⟩

theorem PcOk.linked [DecidableEq τ] {p : Pc} {cur' : Head} {st' en' : BitVec 32}
    {mid' : List (BitVec 32)}
    (hinv : Invariant size s stack) (h : PcOk s t p) (ht : t ≠ t')
    (hen : s.owner en' = some t') : PcOk (s.link t' cur' st' mid' en') t p := by
  have hgift : ∀ {st mid en}, Gift s t st mid en →
      Gift (s.link t' cur' st' mid' en') t st mid en := by
    rintro st mid en ⟨⟨hnodup, hfirst, howned⟩, hchain⟩
    refine ⟨⟨hnodup, hfirst, howned⟩, (chain_update ?_).mpr hchain⟩
    intro hmem
    have hown := howned en' (List.mem_append_left [en] hmem)
    exact ht (Option.some.inj (hown.symm.trans hen))
  cases p with
  | idle => trivial
  | nxtLoaded cur seen =>
    obtain ⟨hle, hsame, hadv⟩ := h
    exact ⟨hle, hsame, hadv⟩
  | nxtRead cur nxt seen =>
    obtain ⟨hs, hend, hnxt⟩ := h
    refine ⟨⟨hs.le, hs.same, hs.advanced⟩, hend, fun heq => ?_⟩
    have hcur : s.lst.s_h = cur := hs.same heq
    obtain ⟨rest, hstack, _⟩ := hinv.head_free (by rwa [hcur])
    have hfree := ((hinv.free cur.idx).mp (by rw [hstack, hcur]; exact List.mem_cons_self)).2
    have hne : cur.idx ≠ en' := by
      rintro rfl
      rw [hfree] at hen
      exact absurd hen nofun
    exact (hnxt heq).trans (Function.update_of_ne hne _ _).symm
  | freeLoaded cur st mid en => exact hgift h
  | freeLinked cur st mid en =>
    obtain ⟨hg, hlink⟩ := h
    refine ⟨hgift hg, ?_⟩
    have hne : en ≠ en' := by
      rintro rfl
      have hown := hg.owned en (by simp)
      exact ht (Option.some.inj (hown.symm.trans hen))
    exact (Function.update_of_ne hne _ _).trans hlink

end Frames

theorem toNat_index {k : ℕ} (hk : k < size) (hsize : size < 2 ^ 32) :
    (BitVec.ofNat 32 k).toNat = k := by
  rw [BitVec.toNat_ofNat]
  exact Nat.mod_eq_of_lt (by omega)

theorem mem_blocks (hsize : size < 2 ^ 32) (i : BitVec 32) : i ∈ blocks size ↔ i.toNat < size := by
  rw [blocks, List.mem_map]
  constructor
  · rintro ⟨k, hk, rfl⟩
    have hlt := List.mem_range.mp hk
    rwa [toNat_index hlt hsize]
  · intro hi
    exact ⟨i.toNat, List.mem_range.mpr hi, by rw [BitVec.ofNat_toNat, BitVec.setWidth_eq]⟩

theorem nodup_blocks (hsize : size < 2 ^ 32) : (blocks size).Nodup := by
  refine List.Nodup.map_on (fun a ha b hb heq => ?_) List.nodup_range
  have hnat := congrArg BitVec.toNat heq
  rwa [toNat_index (List.mem_range.mp ha) hsize, toNat_index (List.mem_range.mp hb) hsize] at hnat

theorem length_blocks : (blocks size).length = size := by
  rw [blocks, List.length_map, List.length_range]

theorem chain_new (hsize : size < 2 ^ 32) {k : ℕ} (hk : k < size) :
    Chain (CncrLst.new size).s_lv (BitVec.ofNat 32 k)
      ((List.range' k (size - k)).map (BitVec.ofNat 32)) LIST_END := by
  obtain ⟨n, hn⟩ : ∃ n, size - k = n + 1 := ⟨size - k - 1, by omega⟩
  induction n generalizing k with
  | zero =>
    rw [hn]
    refine ⟨rfl, if_neg ?_⟩
    rw [toNat_index hk hsize]
    omega
  | succ n ih =>
    have hrest := ih (k := k + 1) (by omega) (by omega)
    rw [hn, List.range'_succ, List.map_cons, show n + 1 = size - (k + 1) by omega]
    refine ⟨rfl, ?_⟩
    have hlink : (CncrLst.new size).s_lv (BitVec.ofNat 32 k) = BitVec.ofNat 32 (k + 1) := by
      rw [BitVec.ofNat_add]
      refine if_pos ?_
      rw [toNat_index hk hsize]
      omega
    rwa [hlink]

theorem invariant_init (τ : Type*) (hpos : 0 < size) (hsize : size < 2 ^ 32) :
    Invariant size (.init τ size) (blocks size) := by
  refine ⟨?_, nodup_blocks hsize, fun i => ?_, fun i t h => ?_, fun t => trivial⟩
  · have hchain := chain_new hsize hpos
    rwa [Nat.sub_zero, ← List.range_eq_range'] at hchain
  · rw [mem_blocks hsize]
    exact ⟨fun h => ⟨h, rfl⟩, fun h => h.1⟩
  · exact absurd h nofun

theorem Gives.mem_en {st en : BitVec 32} {mid : List (BitVec 32)} (h : Gives s t st mid en) :
    s.owner en = some t := h.owned en (by simp)

theorem Gives.en_notMem {st en : BitVec 32} {mid : List (BitVec 32)} (h : Gives s t st mid en) :
    en ∉ mid := by
  have hnodup := h.nodup
  rw [List.nodup_append] at hnodup
  exact fun hmem => hnodup.2.2 en hmem en (List.mem_singleton_self en) rfl

theorem Invariant.not_free {i : BitVec 32} (h : Invariant size s stack)
    (hi : s.owner i = some t) : i ∉ stack := by
  intro hmem
  have hnone := ((h.free i).mp hmem).2
  rw [hi] at hnone
  exact absurd hnone nofun

section Steps
variable [DecidableEq τ]

theorem Invariant.move {p : Pc} (h : Invariant size s stack) (hlst : u.lst = s.lst)
    (howner : u.owner = s.owner) (hchanges : u.changes = s.changes)
    (hpc : u.pc = Function.update s.pc t p) (hp : PcOk u t p) : Invariant size u stack := by
  refine ⟨by rw [hlst]; exact h.chain, h.nodup, by rw [howner]; exact h.free,
    by rw [howner]; exact h.owned, pcs_of hpc hp fun t' _ => ?_⟩
  exact (h.pcs t').same hlst (fun i hi => howner ▸ hi) hchanges

theorem Invariant.load (h : Invariant size s stack) (t : τ) :
    Invariant size (s.load t) stack :=
  h.move rfl rfl rfl rfl ⟨le_refl _, fun _ => rfl, (Seen.now s).advanced⟩

theorem Invariant.hand {i : BitVec 32} (h : Invariant size s stack) (hpc : s.pc t = .idle)
    (hi : s.owner i = some t) (t' : τ) : Invariant size (s.hand t' i) stack := by
  refine ⟨h.chain, h.nodup, fun j => ?_, fun j x => ?_, fun x => ?_⟩
  · change j ∈ stack ↔ j.toNat < size ∧ Function.update s.owner i (some t') j = none
    rw [h.free j]
    by_cases hj : j = i
    · subst hj
      rw [Function.update_self, hi]
      simp
    · rw [Function.update_of_ne hj]
  · change Function.update s.owner i (some t') j = some x → _
    by_cases hj : j = i
    · exact fun _ => hj ▸ h.owned i t hi
    · rw [Function.update_of_ne hj]
      exact h.owned j x
  · change PcOk (s.hand t' i) x (s.pc x)
    by_cases hx : x = t
    · rw [hx, hpc]
      trivial
    · refine (h.pcs x).same rfl (fun j hj => ?_) rfl
      have hne : j ≠ i := by
        rintro rfl
        exact hx (Option.some.inj (hj.symm.trans hi))
      exact (Function.update_of_ne hne _ _).trans hj

theorem Invariant.take {cur : Head} {nxt : BitVec 32} {seen : ℕ} (h : Invariant size s stack)
    (hpc : s.pc t = .nxtRead cur nxt seen) (hcur : s.lst.s_h = cur)
    (hprompt : s.changes - seen < 2 ^ 32 - 1) :
    ∃ rest, stack = cur.idx :: rest ∧ Invariant size (s.take t cur nxt) rest := by
  have hok := h.pcs t
  rw [hpc] at hok
  obtain ⟨hseen, hend, hnxt⟩ := hok
  obtain ⟨rest, hstack, hchain⟩ := h.head_free (by rwa [hcur])
  rw [hcur] at hstack hchain
  rw [← hnxt (hseen.unchanged hcur hprompt)] at hchain
  have hnodup := h.nodup
  rw [hstack, List.nodup_cons] at hnodup
  have hidx := (h.free cur.idx).mp (by rw [hstack]; exact List.mem_cons_self)
  refine ⟨rest, hstack, ⟨hchain, hnodup.2, fun i => ?_, fun i t' => ?_, ?_⟩⟩
  · change i ∈ rest ↔ i.toNat < size ∧ Function.update s.owner cur.idx (some t) i = none
    by_cases hi : i = cur.idx
    · subst hi
      rw [Function.update_self]
      exact ⟨fun hmem => absurd hmem hnodup.1, fun h => absurd h.2 nofun⟩
    · rw [Function.update_of_ne hi, ← h.free i, hstack, List.mem_cons]
      exact ⟨.inr, fun hmem => hmem.resolve_left hi⟩
  · change Function.update s.owner cur.idx (some t) i = some t' → _
    by_cases hi : i = cur.idx
    · exact fun _ => hi ▸ hidx.1
    · rw [Function.update_of_ne hi]
      exact h.owned i t'
  · refine pcs_of rfl trivial fun t' _ => (h.pcs t').exchanged rfl rfl ?_ fun i hi => ?_
    · intro v d hadv
      rw [hcur] at hadv
      exact hadv.nxt
    · have hne : i ≠ cur.idx := by
        rintro rfl
        rw [hidx.2] at hi
        exact absurd hi nofun
      exact (Function.update_of_ne hne _ _).trans hi

theorem Invariant.link {cur : Head} {st en : BitVec 32} {mid : List (BitVec 32)}
    (h : Invariant size s stack) (hpc : s.pc t = .freeLoaded cur st mid en) :
    Invariant size (s.link t cur st mid en) stack := by
  have hok := h.pcs t
  rw [hpc] at hok
  have hgift : Gift s t st mid en := hok
  have hen := hgift.mem_en
  refine ⟨(chain_update (h.not_free hen)).mpr h.chain, h.nodup, h.free, h.owned, ?_⟩
  refine pcs_of rfl ⟨⟨⟨hgift.nodup, hgift.first, hgift.owned⟩, ?_⟩,
    Function.update_self _ _ _⟩ ?_
  · exact (chain_update hgift.en_notMem).mpr hgift.chain
  · exact fun t' ht => (h.pcs t').linked h ht hen

theorem Invariant.give {cur : Head} {st en : BitVec 32} {mid : List (BitVec 32)}
    (h : Invariant size s stack) (hpc : s.pc t = .freeLinked cur st mid en)
    (hcur : s.lst.s_h = cur) :
    Invariant size (s.give t cur st mid en) (mid ++ [en] ++ stack) := by
  have hok := h.pcs t
  rw [hpc] at hok
  obtain ⟨hgift, hlink⟩ := hok
  have hchain : Chain s.lst.s_lv cur.idx stack LIST_END := hcur ▸ h.chain
  refine ⟨?_, ?_, fun i => ?_, fun i t' => ?_, ?_⟩
  · exact chain_append.mpr ⟨cur.idx, chain_concat.mpr ⟨hgift.chain, hlink⟩, hchain⟩
  · refine List.nodup_append.mpr ⟨hgift.nodup, h.nodup, fun a ha b hb => ?_⟩
    rintro rfl
    exact h.not_free (hgift.owned a ha) hb
  · change _ ↔ i.toNat < size ∧ (if i ∈ mid ++ [en] then none else s.owner i) = none
    rw [List.mem_append, h.free i]
    by_cases hi : i ∈ mid ++ [en]
    · rw [if_pos hi]
      exact ⟨fun _ => ⟨h.owned i t (hgift.owned i hi), rfl⟩, fun _ => .inl hi⟩
    · rw [if_neg hi, or_iff_right hi]
  · change (if i ∈ mid ++ [en] then none else s.owner i) = some t' → _
    split
    · exact fun h => absurd h nofun
    · exact h.owned i t'
  · refine pcs_of rfl trivial fun t' ht => (h.pcs t').exchanged rfl rfl ?_ fun i hi => ?_
    · intro v d hadv
      rw [hcur] at hadv
      exact hadv.free
    · have hmem : i ∉ mid ++ [en] := fun hmem =>
        ht (Option.some.inj (hi.symm.trans (hgift.owned i hmem)))
      exact (if_neg hmem).trans hi

def Tracks (size : ℕ) (s : State τ) (p : Pool τ (BitVec 32)) : Prop :=
  Invariant size s p.stack ∧ p.log = s.log

theorem tracks_load {p : Pool τ (BitVec 32)} (hsize : size < 2 ^ 32) (h : Tracks size s p)
    (t : τ) : ∃ bs w, (pool τ (BitVec 32) (blocks size)).Runs p bs w ∧
      Tracks size (s.load t) w := by
  obtain ⟨hinv, hlog⟩ := h
  have hhead := hinv.head?_eq hsize
  by_cases hend : s.lst.s_h.idx = LIST_END
  · rw [if_pos hend] at hhead
    have hempty := List.head?_eq_none_iff.mp hhead
    refine ⟨[.took t none], ⟨p.stack.tail, p.log ++ [.took t none]⟩, .one trivial ?_, ?_, ?_⟩
    · exact Pool.step_took hhead t
    · have htail : p.stack.tail = p.stack := by rw [hempty]; rfl
      change Invariant size (s.load t) p.stack.tail
      rw [htail]
      exact hinv.load t
    · change p.log ++ _ = if s.lst.s_h.idx = LIST_END then _ else _
      rw [if_pos hend, hlog]
  · refine ⟨[], p, .refl p, hinv.load t, ?_⟩
    change p.log = if s.lst.s_h.idx = LIST_END then _ else _
    rw [if_neg hend, hlog]

/-- Every interleaving of calls does to the blocks what atomic calls do, where the lists that are
    given back are linked. -/
theorem list_refines (hpos : 0 < size) (hsize : size < 2 ^ 32) :
    (machine τ size).Refines (fun s a => Prompt s a ∧ Linked s a)
      (pool τ (BitVec 32) (blocks size)) (Tracks size) where
  start := ⟨invariant_init τ hpos hsize, rfl⟩
  simulate := by
    rintro s p a u ⟨hinv, hlog⟩ ⟨hprompt, hlinked⟩ hstep
    cases step_move hstep with
    | nxtLoad t hpc => exact tracks_load hsize ⟨hinv, hlog⟩ t
    | freeLoad t st mid en hpc hgift =>
      refine ⟨[], p, .refl p, hinv.move (t := t) rfl rfl rfl rfl ?_, hlog⟩
      exact ⟨⟨hgift.nodup, hgift.first, hgift.owned⟩, hlinked⟩
    | hand t t' i hpc howner => exact ⟨[], p, .refl p, hinv.hand hpc howner t', hlog⟩
    | nxtEnd t cur seen hpc hend =>
      exact ⟨[], p, .refl p, hinv.move (t := t) rfl rfl rfl rfl trivial, hlog⟩
    | nxtRead t cur seen hpc hend =>
      have hok := hinv.pcs t
      rw [hpc] at hok
      obtain ⟨hle, hsame, hadv⟩ := hok
      refine ⟨[], p, .refl p, hinv.move (t := t) rfl rfl rfl rfl ?_, hlog⟩
      exact ⟨⟨hle, hsame, hadv⟩, hend, fun _ => rfl⟩
    | take t cur nxt seen hpc hcur =>
      have hlt : s.changes - seen < 2 ^ 32 - 1 := by simpa [Prompt, Pc.stale, hpc] using hprompt
      obtain ⟨rest, hstack, hrest⟩ := hinv.take hpc hcur hlt
      refine ⟨[.took t (some cur.idx)], ⟨rest, p.log ++ [.took t (some cur.idx)]⟩,
        .one trivial ?_, hrest, by rw [hlog]; rfl⟩
      have hhead : p.stack.head? = some cur.idx := by rw [hstack]; rfl
      refine (Pool.step_took hhead t).trans ?_
      rw [hstack]
      rfl
    | nxtRetry t cur nxt seen hpc hcur => exact tracks_load hsize ⟨hinv, hlog⟩ t
    | link t cur st mid en hpc => exact ⟨[], p, .refl p, hinv.link hpc, hlog⟩
    | give t cur st mid en hpc hcur =>
      exact ⟨[.gave t (mid ++ [en])], ⟨mid ++ [en] ++ p.stack, p.log ++ [.gave t (mid ++ [en])]⟩,
        .one trivial rfl, hinv.give hpc hcur, by rw [hlog]; rfl⟩
    | freeRetry t cur st mid en hpc hcur =>
      have hok := hinv.pcs t
      rw [hpc] at hok
      exact ⟨[], p, .refl p, hinv.move (t := t) rfl rfl rfl rfl
        ⟨⟨hok.1.nodup, hok.1.first, hok.1.owned⟩, hok.1.chain⟩, hlog⟩

end Steps

theorem pool_log {τ ι : Type*} [DecidableEq ι] {start : List ι} {p q : Pool τ ι}
    {es : List (Event τ ι)} (h : (pool τ ι start).Runs p es q) : q.log = p.log ++ es := by
  induction h with
  | refl p => exact (List.append_nil p.log).symm
  | @next p u q e es _ hstep _ ih =>
    have hu : u.log = p.log ++ [e] := by
      cases e with
      | took t result =>
        change (if _ then _ else _) = _ at hstep
        split at hstep
        · exact congrArg Pool.log (Option.some.inj hstep).symm
        · exact absurd hstep nofun
      | gave t blocks => exact congrArg Pool.log (Option.some.inj hstep).symm
    rw [ih, hu, List.append_assoc, List.singleton_append]

/-- The list after a history: the atomic stack has come to it by the same events. -/
def Atomic [DecidableEq τ] (size : ℕ) (s : State τ) : Prop :=
  ∃ stack, (pool τ (BitVec 32) (blocks size)).Runs ⟨blocks size, []⟩ s.log ⟨stack, s.log⟩ ∧
    Chain s.lst.s_lv s.lst.s_h.idx stack LIST_END ∧ stack.Nodup ∧
    ∀ i, i ∈ stack ↔ i.toNat < size ∧ s.owner i = none

section Atomicity
variable [DecidableEq τ] {as : List (Action τ)}

theorem atomic_of_linked (hpos : 0 < size) (hsize : size < 2 ^ 32)
    (h : (machine τ size).RunsWith (fun s a => Prompt s a ∧ Linked s a) (.init τ size) as s) :
    Atomic size s := by
  obtain ⟨es, ⟨stack, log⟩, hrun, hinv, hlog⟩ := (list_refines hpos hsize).reaches h
  have hes : log = es := pool_log hrun
  obtain rfl : log = s.log := hlog
  subst es
  exact ⟨stack, hrun, hinv.chain, hinv.nodup, hinv.free⟩

/-- A list that was given back atomically was linked. -/
theorem Atomic.linked {st en : BitVec 32} {mid : List (BitVec 32)} (h : Atomic size s)
    (hgives : Gives s t st mid en) (hlst : u.lst = s.lst.free st en)
    (hlog : u.log = s.log ++ [.gave t (mid ++ [en])]) (hu : Atomic size u) :
    Chain s.lst.s_lv st mid en := by
  obtain ⟨stack, hrun, _⟩ := h
  obtain ⟨stack', hrun', hchain, _⟩ := hu
  have hgave : (pool τ (BitVec 32) (blocks size)).Runs ⟨blocks size, []⟩ u.log
      ⟨mid ++ [en] ++ stack, u.log⟩ := by
    rw [hlog]
    exact hrun.trans (.one trivial rfl)
  obtain rfl : stack' = mid ++ [en] ++ stack := congrArg Pool.stack (hrun'.unique hgave)
  rw [hlst] at hchain
  obtain ⟨c, hchain, _⟩ := chain_append.mp hchain
  exact (chain_update hgives.en_notMem).mp (chain_concat.mp hchain).1

/-- The list is atomic as long as the lists that are given back are linked, and from the first
    one that is not it comes to be not. -/
theorem free_list_atomic_exactly (hpos : 0 < size) (hsize : size < 2 ^ 32)
    (h : (machine τ size).RunsWith (fun s a => Prompt s a ∧ Linked s a) (.init τ size) as s) :
    Atomic size s ∧ ∀ a u, (machine τ size).step s a = some u → ¬ Linked s a →
      ∃ bs v, (machine τ size).RunsWith Prompt u bs v ∧ ¬ Atomic size v := by
  have hatomic := atomic_of_linked hpos hsize h
  refine ⟨hatomic, fun a u hstep hnot => ?_⟩
  cases a with
  | free t st mid en =>
    have hmove : Move s (.free t st mid en) u := step_move hstep
    cases hmove with
    | freeLoad _ _ _ _ hpc hgives =>
      obtain ⟨u', v, hstep', hrun, _, hlst, hlog⟩ := @free_alone τ _ s t size st en mid hpc hgives
      obtain rfl := Option.some.inj (hstep'.symm.trans hstep)
      exact ⟨_, v, hrun, fun hv => hnot (hatomic.linked hgives hlst hlog hv)⟩
  | nxt t => exact absurd trivial hnot
  | hand t t' i => exact absurd trivial hnot
  | go t => exact absurd trivial hnot

end Atomicity

/-- Two blocks are given back while another thread has a stale link to them; and two threads take
    four blocks in turn, so that the links of the first one's lead to those of the second. -/
theorem free_list_atomic_exactly_lists :
    (∃ s, (machine Bool 4).RunsWith (fun s a => Prompt s a ∧ Linked s a) (.init Bool 4)
        [.nxt true, .go true, .nxt false, .go false, .go false, .nxt false, .go false, .go false,
          .free false 0 [0] 1, .go false, .go false, .go true, .go true, .go true] s ∧
      s.log = [.took false (some 0), .took false (some 1), .gave false [0, 1],
        .took true (some 0)] ∧ Atomic 4 s) ∧
    ∃ s u, (machine Bool 4).RunsWith (fun s a => Prompt s a ∧ Linked s a) (.init Bool 4)
        [.nxt true, .go true, .go true, .nxt false, .go false, .go false, .nxt true, .go true,
          .go true, .nxt false, .go false, .go false] s ∧
      (machine Bool 4).step s (.free true 0 [0] 2) = some u ∧
      ∃ bs v, (machine Bool 4).RunsWith Prompt u bs v ∧ ¬ Atomic 4 v := by
  constructor
  · obtain ⟨s, hrun, hlog⟩ := Machine.runsWith_of_eval (machine Bool 4)
      (fun s a => Prompt s a ∧ Linked s a)
      [.nxt true, .go true, .nxt false, .go false, .go false, .nxt false, .go false, .go false,
        .free false 0 [0] 1, .go false, .go false, .go true, .go true, .go true]
      (fun s => s.log = [.took false (some 0), .took false (some 1), .gave false [0, 1],
        .took true (some 0)]) (by decide)
    exact ⟨s, hrun, hlog, (free_list_atomic_exactly (by decide) (by decide) hrun).1⟩
  · obtain ⟨s, hrun, hsome, hnot⟩ := Machine.runsWith_of_eval (machine Bool 4)
      (fun s a => Prompt s a ∧ Linked s a)
      [.nxt true, .go true, .go true, .nxt false, .go false, .go false, .nxt true, .go true,
        .go true, .nxt false, .go false, .go false]
      (fun s => (step s (.free true 0 [0] 2)).isSome ∧ ¬ Linked s (.free true 0 [0] 2))
      (by decide)
    obtain ⟨u, hu⟩ := Option.isSome_iff_exists.mp hsome
    have hfails := (free_list_atomic_exactly (by decide) (by decide) hrun).2
      (.free true 0 [0] 2) u hu hnot
    exact ⟨s, u, hrun, hu, hfails⟩

/-- Block 1 is taken by the one thread while the other still has it. -/
example : ((machine Bool 4).exec Prompt (.init Bool 4)
    [.nxt true, .go true, .go true, .nxt false, .go false, .go false, .nxt true, .go true,
      .go true, .nxt false, .go false, .go false, .free true 0 [0] 2, .go true, .go true,
      .nxt true, .go true, .go true, .nxt true, .go true, .go true]).any (fun s =>
    s.log = [.took true (some 0), .took false (some 1), .took true (some 2), .took false (some 3),
      .gave true [0, 2], .took true (some 0), .took true (some 1)]) = true := by
  decide

end NvdlaVp.Simdb.FreeList
