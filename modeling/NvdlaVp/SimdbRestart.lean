import NvdlaVp.SimdbClearing
import NvdlaVp.SimdbKeys

set_option autoImplicit false

namespace NvdlaVp.Simdb
open ByteMemory BlockBytes ProbeTable KeyValueStore MachineRuns

/-- No key whose slot is the first one, or directly behind that of another, has a key behind. -/
def Unhindered (count : ℕ) (K : List Str) : Prop :=
  ∀ k ∈ K, (start count k = 0 ∨ ∃ k0 ∈ K, start count k0 + 1 = start count k) →
    ∀ k' ∈ K, ¬ start count k < start count k'

instance (count : ℕ) (K : List Str) : Decidable (Unhindered count K) :=
  inferInstanceAs (Decidable (∀ k ∈ K,
    (start count k = 0 ∨ ∃ k0 ∈ K, start count k0 + 1 = start count k) →
      ∀ k' ∈ K, ¬ start count k < start count k'))

variable {size count : ℕ} {t : Table ℕ (Entry size)} {held : BitVec 32 → Option (Entry size)}
  {free : List (BitVec 32)} {K : List Str} {u : CncrHsh × Store Str Str} {i : ℕ}

theorem start_lt (hpos : 0 < count) (key : Str) : start count key < count := Nat.mod_lt _ hpos

theorem Home.full_start (g : Geometry size count) (hhome : Home count K u t) {k : Str}
    (hk : k.length < 2 ^ 32) (hvalue : u.2.get k ≠ none) :
    ∃ e, t (start count k) = .full e ∧ e.key = k := by
  rw [← hhome.answers k hk, ne_eq, Option.map_eq_none_iff] at hvalue
  obtain ⟨e, he⟩ := Option.ne_none_iff_exists'.mp hvalue
  obtain ⟨i, hslot, hfull⟩ := get_eq_some.mp he
  have hkey := key_of_get he
  have hfirst := hhome.atHome.first i e hfull
  rw [hkey, head_order g.pos, Option.some.injEq] at hfirst
  exact ⟨e, hfirst ▸ hfull, hkey⟩

theorem Home.key_of_used (g : Geometry size count) (h' : Slots u.1 count t held free)
    (hhome : Home count K u t) (hi : i < count) (hused : u.1.used i) :
    ∃ k ∈ K, start count k = i ∧ u.1.keyAt i = some k := by
  obtain ⟨e, he⟩ := (h'.used_iff g hi).mp hused
  have hfirst := hhome.atHome.first i e he
  rw [head_order g.pos, Option.some.injEq] at hfirst
  exact ⟨e.key, hhome.atHome.known i e he, hfirst, h'.keyAt g hi he⟩

theorem Home.scattered (g : Geometry size count) (h' : Slots u.1 count t held free)
    (hhome : Home count K u t) (hnul : ∀ k ∈ K, hasNul k = false) (hfree : Unhindered count K) :
    u.1.Scattered := by
  rw [CncrHsh.Scattered, h'.sz]
  constructor
  · intro i hi
    cases hkeyAt : u.1.keyAt i with
    | none => rfl
    | some key =>
      obtain ⟨e, he, rfl⟩ := Slot.of_holds ((keyAt_slots g h' hi key).mp hkeyAt)
      rw [Option.all_some, hnul _ (hhome.atHome.known i e he), Bool.not_false]
  · intro i hi _ hused hstop j hj hij
    obtain ⟨k, hk, rfl, _⟩ := hhome.key_of_used g h' hi hused
    by_contra hne
    obtain ⟨k', hk', rfl, _⟩ := hhome.key_of_used g h' hj (Bool.eq_true_of_not_eq_false hne)
    refine hfree k hk ?_ k' hk' hij
    rcases Nat.eq_zero_or_pos (start count k) with hzero | hpos
    · exact .inl hzero
    · have hprev := hstop.resolve_left (by omega)
      obtain ⟨k0, hk0, heq, _⟩ := hhome.key_of_used g h' (by omega) hprev
      exact .inr ⟨k0, hk0, by omega⟩

theorem fill (g : Geometry size count) (hcount : 2 ≤ count) (bytes : Buffer)
    (memory : ℕ → BitVec 64) (hlength : ∀ key ∈ K, 0 < key.length ∧ key.length < size)
    {ks : List Str} (hks : ∀ k ∈ ks, k ∈ K) (hmany : ks.length ≤ count) :
    ∃ as u, (machine size count bytes memory).RunsWith (Among K)
        (machine size count bytes memory).init as u ∧
      (∃ (t : Table ℕ (Entry size)) (held : BitVec 32 → Option (Entry size))
        (free : List (BitVec 32)), Serves u.1 count t held free ∧
          count ≤ free.length + ks.length) ∧
      u.1.m_csp.s_version = BitVec.ofNat 64 (ks.length + 1) ∧ ∀ k ∈ ks, u.2.get k ≠ none := by
  induction ks with
  | nil =>
    refine ⟨[], _, .refl _, ⟨_, _, _, serves_new g bytes memory, ?_⟩, rfl, by simp⟩
    rw [FreeList.length_blocks]
    exact Nat.le_add_right _ _
  | cons k ks ih =>
    rw [List.length_cons] at hmany
    obtain ⟨as, u, hrun, ⟨t, held, free, h', hfree⟩, hver, hget⟩ :=
      ih (fun k hk => hks k (List.mem_cons_of_mem _ hk)) (by omega)
    have hk := hks k List.mem_cons_self
    obtain ⟨hpos, hlt⟩ := hlength k hk
    have hroom := g.room
    have hmax := g.count_lt
    have hmul : 2 * size ≤ count * size := Nat.mul_le_mul_right size hcount
    have hne : free ≠ [] := List.ne_nil_of_length_pos (by omega)
    obtain ⟨u1, t1, held1, free1, e, hready, hstep, h1, _, _, hver1, hlen, hstore⟩ :=
      step_byte g h' hne hver (by omega) hpos hlt (by omega) 0
    have hnext : (machine size count bytes memory).RunsWith (Among K) u [.put k [0]] u1 :=
      .one ⟨hready, hk⟩ hstep
    refine ⟨as ++ [.put k [0]], u1, hrun.trans hnext, ⟨t1, held1, free1, h1, ?_⟩, hver1,
      fun k' hk' => ?_⟩
    · rw [List.length_cons]
      omega
    · rw [hstore]
      by_cases heq : k' = k
      · rw [heq, Store.get_put]
        exact Option.some_ne_none _
      · rw [Store.get_put_of_ne _ _ heq]
        exact hget k' ((List.mem_cons.mp hk').resolve_left heq)

theorem not_scattered (g : Geometry size count) (hcount : 3 ≤ count) (hspread : Spread count K)
    (bytes : Buffer) (memory : ℕ → BitVec 64)
    (hlength : ∀ key ∈ K, 0 < key.length ∧ key.length < size) {k k' : Str} (ks : List Str)
    (hks : ∀ x ∈ k :: k' :: ks, x ∈ K) (hmany : ks.length ≤ 1)
    (hlt : start count k < start count k')
    (hstop : start count k = 0 ∨ ∃ k0 ∈ ks, start count k0 + 1 = start count k) :
    ∃ as u, (machine size count bytes memory).RunsWith (Among K)
      (machine size count bytes memory).init as u ∧ ¬ u.1.Scattered := by
  obtain ⟨as, u, hrun, _, _, hget⟩ := fill g (by omega) bytes memory hlength hks (by
    rw [List.length_cons, List.length_cons]
    omega)
  obtain ⟨t, held, free, h', hhome⟩ := home_of_spread g (by omega) hspread hrun
  have hroom := g.room
  have hmul : 3 * size ≤ count * size := Nat.mul_le_mul_right size hcount
  have hused : ∀ x ∈ k :: k' :: ks, u.1.used (start count x) := by
    intro x hx
    have hshort := (hlength x (hks x hx)).2
    obtain ⟨e, he, _⟩ := hhome.full_start g (by omega) (hget x hx)
    exact (h'.used_iff g (start_lt g.pos x)).mpr ⟨e, he⟩
  refine ⟨as, u, hrun, fun hscattered => ?_⟩
  have hreached := hscattered.2
  rw [h'.sz] at hreached
  have hnone := hreached (start count k) (start_lt g.pos k) (Nat.zero_le _)
    (hused k List.mem_cons_self) ?_ (start count k') (start_lt g.pos k') hlt
  · have hk' := hused k' (by simp)
    rw [hnone] at hk'
    exact absurd hk' Bool.false_ne_true
  · rcases hstop with hzero | ⟨k0, hk0, heq⟩
    · exact .inl hzero
    · right
      rw [← heq, Nat.add_sub_cancel]
      exact hused k0 (by simp [hk0])

end NvdlaVp.Simdb
