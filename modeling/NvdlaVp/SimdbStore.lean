import NvdlaVp.SimdbTable

set_option autoImplicit false

namespace NvdlaVp.Simdb
open ByteMemory BlockBytes ProbeTable

variable {size count : ℕ}

structure Serves (h : CncrHsh) (count : ℕ) (t : Table ℕ (Entry size))
    (held : BitVec 32 → Option (Entry size)) (free : List (BitVec 32)) : Prop extends
    Slots h count t held free where
  placed : ∀ st e, held st = some e → ∃ i < count, t i = .full e ∧ (h.load i).idx = st
  once : ∀ i < count, ∀ j < count, ∀ e e', t i = .full e → t j = .full e' →
    (h.load i).idx = (h.load j).idx → i = j

variable {h : CncrHsh} {t : Table ℕ (Entry size)} {held : BitVec 32 → Option (Entry size)}
  {free rest : List (BitVec 32)} {key value : List (BitVec 8)} {i : ℕ} {st : BitVec 32}
  {e : Entry size} {out : Buffer}

theorem serves_new (g : Geometry size count) (bytes : Buffer) (memory : ℕ → BitVec 64) :
    Serves (.new (BitVec.ofNat 32 count) (.new size count bytes) memory true) count
      (fun _ => (.empty : Slot (Entry size))) (fun _ => none) (FreeList.blocks count) := by
  have hcount := g.count_lt
  have hsz : (BitVec.ofNat 32 count).toNat = count := by
    rw [BitVec.toNat_ofNat, Nat.mod_eq_of_lt (by omega)]
  refine ⟨⟨hsz, stored_new g bytes, fun i hi => ?_⟩, nofun, nofun⟩
  refine CncrHsh.load_of_encode ?_
  rw [CncrHsh.new, if_pos rfl]
  simp only [hsz, if_pos hi, encode]
  by_cases hodd : i % 2 = 1
  · rw [if_neg (by omega), if_pos hodd]
    rfl
  · rw [if_pos (by omega), if_neg hodd]
    rfl

theorem Slots.found (h' : Slots h count t held free)
    (hslot : slotOf Entry.key (order count) t key = some i) :
    ∃ e, t i = .full e ∧ e.key = key ∧ ProbeTable.get Entry.key (order count) t key = some e ∧
      held (h.load i).idx = some e ∧ (h.load i).version = e.ver := by
  obtain ⟨hi, e, he, hkey⟩ := slotOf_spec hslot
  have hstands := h'.stands i (mem_order.mp hi)
  rw [he] at hstands
  exact ⟨e, he, hkey, get_eq_some.mpr ⟨i, hslot, he⟩, hstands.1, hstands.2.1⟩

theorem get_none_of_slotOf (hslot : slotOf Entry.key (order count) t key = none) :
    ProbeTable.get Entry.key (order count) t key = none := by
  rw [ProbeTable.get, hslot]
  rfl

section Reading
variable (g : Geometry size count) (h' : Slots h count t held free)
include g h'

theorem Slots.start (key : List (BitVec 8)) : (HashBytes key).toNat % h.m_sz < count := by
  rw [h'.sz]
  exact Nat.mod_lt _ g.pos

theorem Slots.ends (key : List (BitVec 8)) : Ends count count ((HashBytes key).toNat % h.m_sz)
    (h.prevIdx ((HashBytes key).toNat % h.m_sz)) := by
  have hcount := g.count_lt
  exact ends_order h'.sz g.pos (by omega) (h'.start g key)

theorem runMatch_spec : h.runMatch key (HashBytes key) =
    some ((slotOf Entry.key (order count) t key).map h.load, h) := by
  have hends := h'.ends g key
  have hstart := h'.start g key
  have hpos := g.pos
  obtain ⟨n, rfl⟩ : ∃ n, count = n + 1 := ⟨count - 1, by omega⟩
  have hloop : CncrHsh.matchLoop (HashBytes key) key _ _ h _ = _ :=
    matchLoop_spec g h' hstart hends
  rw [h'.sz] at hloop
  rw [CncrHsh.runMatch, slotOf, order, h'.sz]
  exact hloop

theorem putHashed_spec (desired : VerIdx) : h.putHashed (HashBytes key) desired key = some
    (match placeOf Entry.key (order count) t key with
    | none => (empty_vi, h)
    | some i => (h.load i, h.setSlot i desired)) := by
  have hends := h'.ends g key
  have hstart := h'.start g key
  have hpos := g.pos
  obtain ⟨n, rfl⟩ : ∃ n, count = n + 1 := ⟨count - 1, by omega⟩
  have hloop : CncrHsh.putLoop (HashBytes key) desired key _ _ h _ = _ :=
    putLoop_spec g h' hstart hends desired
  rw [h'.sz] at hloop
  rw [CncrHsh.putHashed, placeOf, order, h'.sz]
  exact hloop

theorem delHashed_spec : h.delHashed key (HashBytes key) = some
    (match victimOf Entry.key (order count) t key with
    | none => (empty_vi, h)
    | some i => (h.load i, h.setSlot i deleted_vi)) := by
  have hends := h'.ends g key
  have hstart := h'.start g key
  have hpos := g.pos
  obtain ⟨n, rfl⟩ : ∃ n, count = n + 1 := ⟨count - 1, by omega⟩
  have hloop : CncrHsh.delLoop (HashBytes key) key _ _ h _ = _ :=
    delLoop_spec g h' hstart hends
  rw [h'.sz] at hloop
  rw [CncrHsh.delHashed, victimOf, order, h'.sz]
  exact hloop

theorem len_slots (hkey : key ≠ []) : h.len key = some
    ((match ProbeTable.get Entry.key (order count) t key with
    | none => (0, none, none)
    | some e => (e.key.length + e.value.length, some e.value.length, some e.ver)), h) := by
  have hlen : ¬ key.length < 1 := by
    rw [Nat.not_lt, Nat.one_le_iff_ne_zero]
    exact fun hzero => hkey (List.eq_nil_of_length_eq_zero hzero)
  rw [CncrHsh.len, if_neg hlen, runMatch_spec g h']
  cases hslot : slotOf Entry.key (order count) t key with
  | none =>
    rw [get_none_of_slotOf hslot]
    rfl
  | some i =>
    obtain ⟨e, _, _, hget, hheld, hver⟩ := h'.found hslot
    rw [hget]
    simp only [Option.map_some, hver, len_held (h'.stored.holds _ e hheld)]

theorem get_slots (hkey : key ≠ []) : h.get key out
      ((ProbeTable.get Entry.key (order count) t key).elim 0 fun e => e.value.length) = some
    ((match ProbeTable.get Entry.key (order count) t key with
    | none => (false, out, none)
    | some e => (true, out.put 0 (bytesOf e.value) e.value.length, some e.value.length)), h) := by
  have hlen : ¬ key.length < 1 := by
    rw [Nat.not_lt, Nat.one_le_iff_ne_zero]
    exact fun hzero => hkey (List.eq_nil_of_length_eq_zero hzero)
  rw [CncrHsh.get, if_neg hlen, runMatch_spec g h']
  cases hslot : slotOf Entry.key (order count) t key with
  | none =>
    rw [get_none_of_slotOf hslot]
    rfl
  | some i =>
    obtain ⟨e, _, _, hget, hheld, hver⟩ := h'.found hslot
    rw [hget]
    simp only [Option.map_some, Option.bind_some, Option.elim_some, hver,
      get_value (h'.stored.holds _ e hheld)]

end Reading

/-- The entry that a slot held is freed once the slot has been exchanged. -/
theorem retire_spec (g : Geometry size count) (h' : Slots h count t held free) (hi : i < count)
    (vi : VerIdx) : ∃ h1 held1 free1, (h.setSlot i vi).retire (h.load i) = some h1 ∧
      Stored h1.m_csp count held1 free1 ∧ h1.m_sz = count ∧
      h1.s_vis = (h.setSlot i vi).s_vis ∧ h1.m_csp.s_version = h.m_csp.s_version ∧
      free.length ≤ free1.length ∧
      ∀ st e, held1 st = some e ↔
        held st = some e ∧ ¬ ((∃ e, t i = .full e) ∧ st = (h.load i).idx) := by
  by_cases hfree : (t i).isFree
  · refine ⟨h.setSlot i vi, held, free, ?_, h'.stored, h'.sz, rfl, rfl, le_refl _, fun st e => ?_⟩
    · have hle := h'.free_le hi hfree
      rw [CncrHsh.retire, if_neg (by rwa [BitVec.not_lt])]
    · refine ⟨fun hst => ⟨hst, fun ⟨⟨e, he⟩, _⟩ => ?_⟩, fun hst => hst.1⟩
      rw [he] at hfree
      exact absurd hfree nofun
  · obtain ⟨e0, he0⟩ := Slot.of_not_isFree hfree
    have hstands := h'.stands i hi
    rw [he0] at hstands
    obtain ⟨hheld, hver, _⟩ := hstands
    obtain ⟨s', hcall, hstored, hversion⟩ := stored_free g h'.stored hheld
    refine ⟨{ h.setSlot i vi with m_csp := s' }, _, _, ?_, hstored, h'.sz, rfl, hversion, ?_, ?_⟩
    · rw [CncrHsh.retire, if_pos (h'.idx_lt g hi he0), hver]
      change Option.map _ (h.m_csp.free _ _) = _
      rw [hcall]
      rfl
    · rw [List.length_append]
      omega
    · intro st e
      rw [held_update]
      constructor
      · rintro (⟨_, heq⟩ | ⟨hne, hst⟩)
        · exact absurd heq nofun
        · exact ⟨hst, fun hboth => hne hboth.2⟩
      · rintro ⟨hst, hnot⟩
        exact .inr ⟨fun heq => hnot ⟨⟨e0, he0⟩, heq⟩, hst⟩

theorem exchange (g : Geometry size count) (h' : Slots h count t held free) (hi : i < count)
    (vi : VerIdx) (s : Slot (Entry size)) (hs : Stands (h.setSlot i vi) held i s)
    (hfresh : ∀ e, s = .full e → ∀ j < count, ∀ e', t j = .full e' → (h.load j).idx ≠ vi.idx)
    (hplaced : ∀ st e, held st = some e →
      (∃ j < count, t j = .full e ∧ (h.load j).idx = st) ∨ s = .full e ∧ vi.idx = st)
    (honce : ∀ j < count, ∀ k < count, ∀ e e', t j = .full e → t k = .full e' →
      (h.load j).idx = (h.load k).idx → j = k) :
    ∃ h1 held1 free1, (h.setSlot i vi).retire (h.load i) = some h1 ∧
      Serves h1 count (Function.update t i s) held1 free1 ∧
      h1.m_csp.s_version = h.m_csp.s_version ∧ free.length ≤ free1.length := by
  obtain ⟨h1, held1, free1, hretire, hstored, hsz, hvis, hversion, hfree, hheld⟩ :=
    retire_spec g h' hi vi
  have hload : ∀ j, h1.load j = (h.setSlot i vi).load j := fun j => by
    rw [CncrHsh.load, CncrHsh.load, hvis]
  have hself : h1.load i = vi := (hload i).trans CncrHsh.load_setSlot
  have hother : ∀ j, j ≠ i → h1.load j = h.load j := fun j hj =>
    (hload j).trans (CncrHsh.load_setSlot_of_ne hj)
  refine ⟨h1, held1, free1, hretire, ⟨⟨hsz, hstored, fun j hj => ?_⟩, ?_, ?_⟩, hversion, hfree⟩
  · by_cases hji : j = i
    · subst hji
      rw [Function.update_self]
      cases s with
      | empty => exact (hload j).trans hs
      | deleted => exact (hload j).trans hs
      | full e =>
        obtain ⟨hst, hver, hhash⟩ := hs
        rw [CncrHsh.load_setSlot] at hst hver
        refine ⟨?_, by rw [hself, hver], hhash⟩
        rw [hself, hheld]
        refine ⟨hst, ?_⟩
        rintro ⟨⟨e', he'⟩, heq⟩
        exact hfresh e rfl j hj e' he' heq.symm
    · rw [Function.update_of_ne hji]
      have hstands := h'.stands j hj
      cases ht : t j with
      | empty =>
        rw [ht] at hstands
        exact (hother j hji).trans hstands
      | deleted =>
        rw [ht] at hstands
        exact (hother j hji).trans hstands
      | full e =>
        rw [ht] at hstands
        obtain ⟨hst, hver, hhash⟩ := hstands
        refine ⟨?_, by rw [hother j hji, hver], hhash⟩
        rw [hother j hji, hheld]
        refine ⟨hst, ?_⟩
        rintro ⟨⟨e', he'⟩, heq⟩
        exact hji (honce j hj i hi e e' ht he' heq)
  · intro st e hst
    obtain ⟨hst, hnot⟩ := (hheld st e).mp hst
    rcases hplaced st e hst with ⟨j, hj, htj, hidx⟩ | ⟨hse, hidx⟩
    · have hji : j ≠ i := by
        rintro rfl
        exact hnot ⟨⟨e, htj⟩, hidx.symm⟩
      exact ⟨j, hj, by rwa [Function.update_of_ne hji], by rw [hother j hji, hidx]⟩
    · exact ⟨i, hi, by rw [Function.update_self, hse], by rw [hself, hidx]⟩
  · intro j hj k hk e e' hte hte' hidx
    by_cases hji : j = i
    · by_cases hki : k = i
      · rw [hji, hki]
      · subst hji
        rw [Function.update_self] at hte
        rw [Function.update_of_ne hki] at hte'
        rw [hself, hother k hki] at hidx
        exact absurd hidx.symm (hfresh e hte k hk e' hte')
    · rw [Function.update_of_ne hji] at hte
      by_cases hki : k = i
      · subst hki
        rw [Function.update_self] at hte'
        rw [hself, hother j hji] at hidx
        exact absurd hidx (hfresh e' hte' j hj e hte)
      · rw [Function.update_of_ne hki] at hte'
        rw [hother j hji, hother k hki] at hidx
        exact honce j hj k hk e e' hte hte' hidx

theorem del_serves (g : Geometry size count) (h' : Serves h count t held free)
    (key : List (BitVec 8)) : ∃ h1 held1 free1,
      h.del key = some ((victimOf Entry.key (order count) t key).isSome, h1) ∧
      Serves h1 count (ProbeTable.del Entry.key (order count) t key) held1 free1 ∧
      h1.m_csp.s_version = h.m_csp.s_version ∧ free.length ≤ free1.length := by
  rw [CncrHsh.del, delHashed_spec g h'.toSlots]
  cases hvictim : victimOf Entry.key (order count) t key with
  | none =>
    rw [del_of_none hvictim]
    exact ⟨h, held, free, rfl, h', rfl, le_refl _⟩
  | some i =>
    obtain ⟨hmem, hholds⟩ := victimOf_spec hvictim
    have hi : i < count := mem_order.mp (List.dropLast_subset _ hmem)
    obtain ⟨e0, he0, _⟩ := Slot.of_holds hholds
    obtain ⟨h1, held1, free1, hretire, hserves, hversion, hfree⟩ :=
      exchange g h'.toSlots hi deleted_vi .deleted CncrHsh.load_setSlot nofun
        (fun st e hst => .inl (h'.placed st e hst)) h'.once
    rw [del_of_some hvictim]
    refine ⟨h1, held1, free1, ?_, hserves, hversion, hfree⟩
    simp only [Option.bind_some, hretire, Option.map_some, h'.idx_lt g hi he0, decide_true,
      Option.isSome_some]

/-- An entry that is put finds a slot: each of the others has a block of its own. -/
theorem placeOf_some (h' : Slots h count t held free)
    (honce : ∀ j < count, ∀ k < count, ∀ e e', t j = .full e → t k = .full e' →
      (h.load j).idx = (h.load k).idx → j = k)
    (hst : held st = some e) (hpending : ∀ j < count, ∀ e', t j = .full e' → (h.load j).idx ≠ st)
    (key : List (BitVec 8)) : ∃ i < count, placeOf Entry.key (order count) t key = some i := by
  by_contra hnone
  have hfull : ∀ j < count, ∃ e, t j = .full e := by
    intro j hj
    refine Slot.of_not_isFree fun hfree => hnone ?_
    have hsome : (placeOf Entry.key (order count) t key).isSome :=
      placeOf_isSome.mpr ⟨j, mem_order.mpr hj, .inl hfree⟩
    obtain ⟨i, hplace⟩ := Option.isSome_iff_exists.mp hsome
    exact ⟨i, mem_order.mp (List.mem_of_find?_eq_some hplace), hplace⟩
  have hnodup : (st.toNat :: (List.range count).map fun j => (h.load j).idx.toNat).Nodup := by
    refine List.nodup_cons.mpr ⟨fun hmem => ?_, ?_⟩
    · obtain ⟨j, hj, heq⟩ := List.mem_map.mp hmem
      obtain ⟨e', he'⟩ := hfull j (List.mem_range.mp hj)
      exact hpending j (List.mem_range.mp hj) e' he' (BitVec.eq_of_toNat_eq heq)
    · refine List.Nodup.map_on (fun j hj k hk heq => ?_) List.nodup_range
      obtain ⟨e1, he1⟩ := hfull j (List.mem_range.mp hj)
      obtain ⟨e2, he2⟩ := hfull k (List.mem_range.mp hk)
      exact honce j (List.mem_range.mp hj) k (List.mem_range.mp hk) e1 e2 he1 he2
        (BitVec.eq_of_toNat_eq heq)
  have hsub : (st.toNat :: (List.range count).map fun j => (h.load j).idx.toNat) ⊆
      List.range count := by
    intro n hn
    rcases List.mem_cons.mp hn with rfl | hn
    · exact List.mem_range.mpr (h'.stored.start_within hst)
    · obtain ⟨j, hj, rfl⟩ := List.mem_map.mp hn
      obtain ⟨e', he'⟩ := hfull j (List.mem_range.mp hj)
      have hstands := h'.stands j (List.mem_range.mp hj)
      rw [he'] at hstands
      exact List.mem_range.mpr (h'.stored.start_within hstands.1)
  have hle := (List.Nodup.subperm hnodup hsub).length_le
  rw [List.length_cons, List.length_map, List.length_range] at hle
  omega

/-- With two free blocks the table has so many free slots that the last one is not needed. -/
theorem placeOf_notLast (h' : Serves h count t held free) (hfree : 2 ≤ free.length)
    (hplace : placeOf Entry.key (order count) t key = some i) :
    i ∈ (order count key).dropLast := by
  obtain ⟨_, before, after, horder, hbefore⟩ := placeOf_spec hplace
  cases after with
  | cons j after =>
    rw [horder, List.dropLast_append_of_ne_nil (by simp), List.dropLast_cons_of_ne_nil (by simp)]
    simp
  | nil =>
    have hlength := congrArg List.length horder
    rw [length_order, List.length_append, List.length_singleton] at hlength
    have hnodup := nodup_order (m := count) key
    rw [horder] at hnodup
    have hbefore_lt : ∀ j ∈ before, j < count := fun j hj =>
      mem_order.mp (horder ▸ List.mem_append_left _ hj)
    have hfull : ∀ j ∈ before, ∃ e, t j = .full e := fun j hj =>
      Slot.of_not_isFree (hbefore j hj).1
    have hstart : ∀ j ∈ before, ∃ e, t j = .full e ∧ held (h.load j).idx = some e := by
      intro j hj
      obtain ⟨e, he⟩ := hfull j hj
      have hstands := h'.stands j (hbefore_lt j hj)
      rw [he] at hstands
      exact ⟨e, he, hstands.1⟩
    have hused : (free.map BitVec.toNat ++ before.map fun j => (h.load j).idx.toNat).Nodup := by
      refine List.nodup_append.mpr ⟨?_, ?_, ?_⟩
      · exact h'.stored.nodup.map fun _ _ heq => BitVec.eq_of_toNat_eq heq
      · refine List.Nodup.map_on (fun j hj k hk heq => ?_) (List.nodup_append.mp hnodup).1
        obtain ⟨e1, he1, _⟩ := hstart j hj
        obtain ⟨e2, he2, _⟩ := hstart k hk
        exact h'.once j (hbefore_lt j hj) k (hbefore_lt k hk) e1 e2 he1 he2
          (BitVec.eq_of_toNat_eq heq)
      · intro n hn n' hn' heq
        obtain ⟨b, hb, rfl⟩ := List.mem_map.mp hn
        obtain ⟨j, hj, rfl⟩ := List.mem_map.mp hn'
        obtain ⟨e, _, hheld⟩ := hstart j hj
        obtain rfl := BitVec.eq_of_toNat_eq heq
        exact h'.stored.notFree _ e hheld _ (h'.stored.holds _ e hheld).st_mem hb
    have hsub : (free.map BitVec.toNat ++ before.map fun j => (h.load j).idx.toNat) ⊆
        List.range count := by
      intro n hn
      rcases List.mem_append.mp hn with hn | hn
      · obtain ⟨b, hb, rfl⟩ := List.mem_map.mp hn
        exact List.mem_range.mpr ((h'.stored.within b).mpr (.inl hb))
      · obtain ⟨j, hj, rfl⟩ := List.mem_map.mp hn
        obtain ⟨e, _, hheld⟩ := hstart j hj
        exact List.mem_range.mpr (h'.stored.start_within hheld)
    have hle := (List.Nodup.subperm hused hsub).length_le
    rw [List.length_append, List.length_map, List.length_map, List.length_range] at hle
    omega

theorem needed_pos (len : ℕ) (hlen : 0 < len) (hsize : 0 < size) {s : CncrStr}
    (hs : s.m_blockSize = size) : 0 < s.blocksNeeded len ∧ len ≤ s.blocksNeeded len * size ∧
      (s.blocksNeeded len - 1) * size < len := by
  have hdiv := Nat.div_add_mod len size
  have hmod := Nat.mod_lt len hsize
  rw [Nat.mul_comm] at hdiv
  rw [CncrStr.blocksNeeded, hs]
  obtain ⟨q, hq⟩ : ∃ q, q = len / size := ⟨_, rfl⟩
  rw [← hq] at hdiv ⊢
  by_cases hrem : len % size = 0
  · rw [if_pos hrem, Nat.add_zero]
    have hqpos : 0 < q := by
      rcases Nat.eq_zero_or_pos q with rfl | h
      · omega
      · exact h
    refine ⟨hqpos, by omega, ?_⟩
    rw [Nat.sub_mul]
    omega
  · rw [if_neg hrem, Nat.add_sub_cancel, Nat.succ_mul]
    exact ⟨Nat.succ_pos q, by omega, by omega⟩

theorem next_entry {s : CncrStr} (hs : s.m_blockSize = size) (hsize : 0 < size)
    (hfits : Fits size key value) (hver : s.s_version.setWidth 32 ≠ 0)
    (hroom : s.blocksNeeded (key.length + value.length) ≤ free.length) :
    ∃ (e : Entry size) (rest : List (BitVec 32)), e.key = key ∧ e.value = value ∧
      e.hash = HashBytes key ∧ e.ver = s.s_version.setWidth 32 ∧ free = e.blocks ++ rest := by
  have hpos := hfits.value_pos
  obtain ⟨hneed, henough, hlast⟩ :=
    needed_pos (key.length + value.length) (by omega) hsize hs
  obtain ⟨n, hn⟩ : ∃ n, s.blocksNeeded (key.length + value.length) = n + 1 :=
    ⟨s.blocksNeeded (key.length + value.length) - 1, by omega⟩
  rw [hn] at hroom henough hlast
  have hsplit : free = (free.take n ++ [free[n]]) ++ free.drop (n + 1) := by
    rw [List.append_assoc, List.singleton_append, List.getElem_cons_drop, List.take_append_drop]
  have hlength : (free.take n ++ [free[n]]).length = n + 1 := by
    rw [List.length_append, List.length_take, List.length_singleton, Nat.min_eq_left (by omega)]
  refine ⟨⟨s.s_version.setWidth 32, free.take n, free[n], HashBytes key, key, value, hver, hfits,
    by rwa [hlength], ?_⟩, free.drop (n + 1), rfl, rfl, rfl, rfl, hsplit⟩
  rwa [List.length_take, Nat.min_eq_left (by omega)]

theorem put_serves (g : Geometry size count) (h' : Serves h count t held free)
    (hfits : Fits size key value) (hver : h.m_csp.s_version.setWidth 32 ≠ 0)
    (hroom : h.m_csp.blocksNeeded (key.length + value.length) ≤ free.length) :
    ∃ h1 held1 free1 t1 e, h.put key value = some (true, h1) ∧ e.key = key ∧ e.value = value ∧
      ProbeTable.put Entry.key (order count) t e = some t1 ∧ Serves h1 count t1 held1 free1 ∧
      h1.m_csp.s_version = h.m_csp.s_version + 1 ∧
      free.length ≤ e.blocks.length + free1.length := by
  have hsize := g.size_gt
  obtain ⟨e, rest, hkey, hvalue, hhash, hever, hfree⟩ :=
    next_entry h'.stored.size_eq (by omega) hfits hver hroom
  obtain ⟨st, s1, s2, halloc, hput, hst, hstored, hversion⟩ :=
    stored_put g h'.stored hfree hever
  subst hkey hvalue
  have hpending : ∀ j < count, ∀ e', t j = .full e' → (h.load j).idx ≠ st := by
    intro j hj e' he' heq
    have hstands := h'.stands j hj
    rw [he'] at hstands
    have hheld : held (h.load j).idx = some e' := hstands.1
    rw [heq, hst] at hheld
    exact absurd hheld nofun
  have hslots : Slots { h with m_csp := s2 } count t (Function.update held st (some e)) rest := by
    refine ⟨h'.sz, hstored, fun j hj => ?_⟩
    have hstands := h'.stands j hj
    cases ht : t j with
    | empty =>
      rw [ht] at hstands
      exact hstands
    | deleted =>
      rw [ht] at hstands
      exact hstands
    | full e' =>
      rw [ht] at hstands
      exact ⟨held_update.mpr (.inr ⟨hpending j hj e' ht, hstands.1⟩), hstands.2⟩
  have hnew : Function.update held st (some e) st = some e := Function.update_self _ _ _
  obtain ⟨i, hi, hplace⟩ := placeOf_some hslots h'.once hnew hpending e.key
  obtain ⟨h1, held1, free1, hretire, hserves, hversion1, hlength⟩ :=
    exchange g hslots hi ⟨st, e.ver⟩ (.full e)
      (by
        rw [Stands, CncrHsh.load_setSlot]
        exact ⟨hnew, rfl, hhash⟩)
      (fun _ _ j hj e' he' => hpending j hj e' he')
      (fun st' e' he' => by
        rcases held_update.mp he' with ⟨hst', heq⟩ | ⟨_, he'⟩
        · exact .inr ⟨congrArg Slot.full (Option.some.inj heq), hst'.symm⟩
        · exact .inl (h'.placed st' e' he'))
      h'.once
  refine ⟨h1, held1, free1, _, e, ?_, rfl, rfl, ?_, hserves, hversion1.trans hversion, ?_⟩
  · have hne : st ≠ LIST_END := (hstored.holds st e hnew).st_ne
    rw [CncrHsh.put, Nat.mod_eq_of_lt e.fits.length_lt, ← hhash, halloc]
    simp only [Option.bind_some, if_neg hne, hput]
    rw [hhash, putHashed_spec g hslots, hplace]
    simp only [Option.bind_some, hretire, Option.map_some]
  · rw [ProbeTable.put, hplace]
    rfl
  · rw [hfree, List.length_append]
    omega

theorem put_full (h' : Serves h count t held []) (key value : List (BitVec 8)) :
    h.put key value = some (false, h) := by
  rw [CncrHsh.put, alloc_none h'.stored.freeBlocks]
  rfl

end NvdlaVp.Simdb
