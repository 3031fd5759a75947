import NvdlaVp.SimdbScan

set_option autoImplicit false

namespace NvdlaVp.Simdb
open ByteMemory BlockBytes ProbeTable KeyValueStore MachineRuns

def CncrHsh.Tidy (h : CncrHsh) : Prop :=
  ∀ i < h.m_sz, (h.keyAt i).all fun key => Clean (h, .empty) (.del key)

instance (h : CncrHsh) : Decidable h.Tidy :=
  Nat.decidableBallLT h.m_sz fun i _ => (h.keyAt i).all fun key => Clean (h, .empty) (.del key)

/-- No key has a zero in it, and no slot in use that is the first one of the memory, or directly
    behind another in use, has any behind it. -/
def CncrHsh.Scattered (h : CncrHsh) : Prop :=
  (∀ i < h.m_sz, (h.keyAt i).all fun key => !hasNul key) ∧ Reached h.used h.m_sz 0

instance (h : CncrHsh) : Decidable h.Scattered :=
  inferInstanceAs (Decidable ((∀ i < h.m_sz, (h.keyAt i).all fun key => !hasNul key) ∧
    Reached h.used h.m_sz 0))

variable {size count : ℕ} {h : CncrHsh} {t : Table ℕ (Entry size)}
  {held : BitVec 32 → Option (Entry size)} {free : List (BitVec 32)} {p i : ℕ} {e : Entry size}

theorem Slots.single (g : Geometry size count) (h' : Slots h count t held free) (htidy : h.Tidy)
    (key : Str) : Single Entry.key (order count) t key := by
  by_cases hkey : ∃ i < count, h.keyAt i = some key
  · obtain ⟨i, hi, hkeyAt⟩ := hkey
    have hall := htidy i (by rwa [h'.sz])
    rw [hkeyAt, Option.all_some, decide_eq_true_eq] at hall
    exact (clean_iff_single g h').mp hall
  · have hnone : ∀ i < count, ¬ (t i).holds Entry.key key := fun i hi hholds =>
      hkey ⟨i, hi, (keyAt_slots g h' hi key).mpr hholds⟩
    exact ⟨fun i hi _ _ hholds => absurd hholds (hnone i (mem_order.mp hi)),
      fun i hi hholds => absurd hholds (hnone i (mem_order.mp hi))⟩

theorem delKeys_spec (g : Geometry size count) (h' : Serves h count t held free)
    {keys : List VerStr} (hkeys : ∀ k ∈ keys, k.str.length < 2 ^ 32) :
    ∃ h1 held1 free1, SimdbObject.delKeys keys ⟨h, p, count⟩ = some ⟨h1, p, count⟩ ∧
      Serves h1 count ((keys.map VerStr.str).foldl (ProbeTable.del Entry.key (order count)) t)
        held1 free1 := by
  induction keys generalizing h t held free with
  | nil => exact ⟨h, held, free, rfl, h'⟩
  | cons k keys ih =>
    obtain ⟨h1, held1, free1, hdel, hserves, _⟩ := del_serves g h' k.str
    obtain ⟨h2, held2, free2, hrest, hserves2⟩ :=
      ih hserves fun k hk => hkeys k (List.mem_cons_of_mem _ hk)
    refine ⟨h2, held2, free2, ?_, hserves2⟩
    have hlt := hkeys k List.mem_cons_self
    rw [SimdbObject.delKeys, SimdbObject.del, CncrHsh.delStr, str_of_lt hlt, hdel, Option.map_some,
      Option.bind_some]
    exact hrest

theorem mem_texts (g : Geometry size count) (h' : Slots h count t held free) {key : Str}
    {js : List ℕ} (hjs : ∀ j ∈ js, j < count ∧ h.used j) :
    (key ≠ [] ∧ ∃ j ∈ js, text h (some j) = key) ↔
      ¬ hasNul key ∧ ∃ j ∈ js, (t j).holds Entry.key key := by
  constructor
  · rintro ⟨hne, j, hj, htext⟩
    obtain ⟨hlt, hused⟩ := hjs j hj
    obtain ⟨e, he⟩ := (h'.used_iff g hlt).mp hused
    rw [text_full g h' hlt he] at htext
    by_cases hnul : hasNul e.key
    · rw [if_pos hnul] at htext
      exact absurd htext.symm hne
    · rw [if_neg hnul] at htext
      subst htext
      exact ⟨hnul, j, hj, by rw [he, Slot.holds_full]⟩
  · rintro ⟨hnul, j, hj, hholds⟩
    obtain ⟨e, he, rfl⟩ := Slot.of_holds hholds
    refine ⟨e.key_ne, j, hj, ?_⟩
    rw [text_full g h' (hjs j hj).1 he, if_neg hnul]

theorem told_of_gone (hcount : 0 < count)
    (hsingle : ∀ key, Single Entry.key (order count) t key) {keys : List Str}
    (hkeys : ∀ key, key ∈ keys ↔ ¬ hasNul key ∧
      ∃ j ∈ visits h.used count count 0 0, (t j).holds Entry.key key)
    (hgone : ∀ key, ProbeTable.get Entry.key (order count)
      (keys.foldl (ProbeTable.del Entry.key (order count)) t) key = none)
    (hi : i < count) (he : t i = .full e) :
    ¬ hasNul e.key ∧ i ∈ visits h.used count count 0 0 := by
  have hholds : (t i).holds Entry.key e.key := by rw [he, Slot.holds_full]
  have hnone := hgone e.key
  rw [get_dels hsingle] at hnone
  have hmem : e.key ∈ keys := by
    by_contra hnot
    rw [if_neg hnot] at hnone
    exact get_eq_none.mp hnone i (mem_order.mpr hi) hholds
  obtain ⟨hnul, j, hj, hjholds⟩ := (hkeys e.key).mp hmem
  have hjlt := (mem_visits hcount hj).1
  have hij := (hsingle e.key).once i (mem_order.mpr hi) j (mem_order.mpr hjlt) hholds hjholds
  exact ⟨hnul, hij ▸ hj⟩

theorem gone_iff (g : Geometry size count) (hcount : 0 < count)
    (h' : Slots h count t held free) (hsingle : ∀ key, Single Entry.key (order count) t key)
    {keys : List Str} (hkeys : ∀ key, key ∈ keys ↔ ¬ hasNul key ∧
      ∃ j ∈ visits h.used count count 0 0, (t j).holds Entry.key key) :
    (∀ key, ProbeTable.get Entry.key (order count)
      (keys.foldl (ProbeTable.del Entry.key (order count)) t) key = none) ↔ h.Scattered := by
  have hvisits : (∀ j < count, 0 ≤ j → h.used j → j ∈ visits h.used count count 0 0) ↔
      Reached h.used count 0 := visits_all hcount (.inl rfl) (le_refl 0) (by omega)
  rw [CncrHsh.Scattered, h'.sz, ← hvisits]
  constructor
  · intro hgone
    constructor
    · intro i hi
      cases hkeyAt : h.keyAt i with
      | none => rfl
      | some key =>
        obtain ⟨e, he, rfl⟩ := Slot.of_holds ((keyAt_slots g h' hi key).mp hkeyAt)
        rw [Option.all_some, Bool.not_eq_true']
        exact Bool.eq_false_iff.mpr (told_of_gone hcount hsingle hkeys hgone hi he).1
    · intro j hj _ hused
      obtain ⟨e, he⟩ := (h'.used_iff g hj).mp hused
      exact (told_of_gone hcount hsingle hkeys hgone hj he).2
  · rintro ⟨hnuls, hvisited⟩ key
    rw [get_dels hsingle]
    split
    · rfl
    · rename_i hnot
      rw [get_eq_none]
      intro i hi hholds
      have hlt := mem_order.mp hi
      obtain ⟨e, he, rfl⟩ := Slot.of_holds hholds
      have hnul := hnuls i hlt
      rw [h'.keyAt g hlt he, Option.all_some, Bool.not_eq_true'] at hnul
      have hused : h.used i := (h'.used_iff g hlt).mpr ⟨e, he⟩
      have hvisit := hvisited i hlt (Nat.zero_le i) hused
      exact hnot ((hkeys e.key).mpr ⟨Bool.eq_false_iff.mp hnul, i, hvisit, hholds⟩)

theorem clear_served (g : Geometry size count) (h' : Serves h count t held free)
    (hsingle : ∀ key, Single Entry.key (order count) t key) :
    ∃ d, (SimdbObject.opened h count).clear = some d ∧
      (Answers (d.s_ch, .empty) ↔ h.Scattered) := by
  have hslots := h'.toSlots
  have hcount := g.pos
  obtain ⟨keys, p, hscan, hmem⟩ := keysLoop_spec g hslots hcount (Nat.le_add_left count 0) []
  have hkeys : ∀ key, key ∈ keys.map VerStr.str ↔ ¬ hasNul key ∧
      ∃ j ∈ visits h.used count count 0 0, (t j).holds Entry.key key := by
    intro key
    rw [hmem, List.map_nil, or_iff_right List.not_mem_nil,
      mem_texts g hslots fun j hj => mem_visits hcount hj]
  have hlengths : ∀ k ∈ keys, k.str.length < 2 ^ 32 := by
    intro k hk
    obtain ⟨_, j, _, hholds⟩ := (hkeys k.str).mp (List.mem_map_of_mem hk)
    obtain ⟨e, _, hkey⟩ := Slot.of_holds hholds
    have hlength := e.fits.length_lt
    rw [← hkey]
    omega
  obtain ⟨h1, held1, free1, hdel, h1'⟩ := delKeys_spec (p := p) g h' hlengths
  refine ⟨⟨h1, p, count⟩, ?_, ?_⟩
  · rw [SimdbObject.clear, SimdbObject.getKeyStrs, SimdbObject.opened, hscan, Option.bind_some]
    exact hdel
  · rw [← gone_iff g hcount hslots hsingle hkeys, answers_iff_table g h1'.toSlots]
    constructor
    · intro hanswers key
      by_contra hne
      obtain ⟨e, he⟩ := Option.ne_none_iff_exists'.mp hne
      have hkey := key_of_get he
      have hlength := e.fits.length_lt
      have hnone := hanswers key (by rw [← hkey]; omega)
      rw [he] at hnone
      exact absurd hnone (Option.some_ne_none _)
    · intro hgone key _
      rw [hgone key]
      rfl

end NvdlaVp.Simdb
