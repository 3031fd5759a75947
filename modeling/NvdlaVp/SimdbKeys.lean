import NvdlaVp.SimdbCalls

set_option autoImplicit false

namespace NvdlaVp.Simdb
open ByteMemory BlockBytes ProbeTable KeyValueStore MachineRuns

def start (count : ℕ) (key : Str) : ℕ := (HashBytes key).toNat % count

def Spread (count : ℕ) (K : List Str) : Prop :=
  ∀ k ∈ K, ∀ k' ∈ K, start count k' = start count k → k' = k

instance (count : ℕ) (K : List Str) : Decidable (Spread count K) :=
  inferInstanceAs (Decidable (∀ k ∈ K, ∀ k' ∈ K, start count k' = start count k → k' = k))

def Call.key : Call → Str
  | .put key _ => key
  | .del key => key

/-- A call that is ready, for one of the keys. -/
def Among (K : List Str) (s : CncrHsh × Store Str Str) (a : Call) : Prop :=
  Ready s a ∧ a.key ∈ K

instance (K : List Str) (s : CncrHsh × Store Str Str) (a : Call) : Decidable (Among K s a) :=
  inferInstanceAs (Decidable (Ready s a ∧ a.key ∈ K))

variable {size count : ℕ} {t t1 : Table ℕ (Entry size)} {held : BitVec 32 → Option (Entry size)}
  {free : List (BitVec 32)} {K : List Str} {s u : CncrHsh × Store Str Str} {a : Call}
  {e : Entry size}

theorem order_eq (hpos : 0 < count) (key : Str) : order count key =
    start count key :: walk count (count - 1) ((start count key + 1) % count) := by
  obtain ⟨n, rfl⟩ : ∃ n, count = n + 1 := ⟨count - 1, by omega⟩
  rfl

theorem head_order (hpos : 0 < count) (key : Str) :
    (order count key).head? = some (start count key) := by
  rw [order_eq hpos, List.head?_cons]

/-- The table answers for the map, and each key is in its own first slot. -/
structure Home (count : ℕ) (K : List Str) (s : CncrHsh × Store Str Str)
    (t : Table ℕ (Entry size)) : Prop where
  answers : ∀ key, key.length < 2 ^ 32 →
    (ProbeTable.get Entry.key (order count) t key).map Entry.value = s.2.get key
  atHome : AtHome Entry.key (order count) (· ∈ K) t

theorem Spread.placeOf (hspread : Spread count K) (hpos : 0 < count)
    (hhome : AtHome Entry.key (order count) (· ∈ K) t) {key : Str} (hkey : key ∈ K) :
    placeOf Entry.key (order count) t key = some (start count key) := by
  apply hhome.placeOf (head_order hpos key)
  intro k hk hsame
  rw [head_order hpos, head_order hpos] at hsame
  exact hspread key hkey k hk (Option.some.inj hsame)

theorem home_put (hspread : Spread count K) (hpos : 0 < count) (hhome : Home count K s t)
    (hkey : e.key ∈ K) (hput : ProbeTable.put Entry.key (order count) t e = some t1)
    (hstore : u.2 = s.2.put e.key e.value) : Home count K u t1 := by
  constructor
  · intro key hlength
    rw [hstore]
    exact put_value hput hhome.answers hlength
  · rw [ProbeTable.put, hspread.placeOf hpos hhome.atHome hkey, Option.map_some,
      Option.some.injEq] at hput
    subst hput
    exact hhome.atHome.update hkey (head_order hpos e.key)

theorem home_del (hcount : 2 ≤ count) (hhome : Home count K s t) {key : Str}
    (hstore : u.2 = s.2.del key) :
    Home count K u (ProbeTable.del Entry.key (order count) t key) := by
  have hsingle : Single Entry.key (order count) t key :=
    hhome.atHome.single (by rwa [length_order])
  constructor
  · intro k hk
    rw [hstore]
    exact del_value hsingle hhome.answers hk
  · exact hhome.atHome.del key

theorem home_moves (hspread : Spread count K) (hcount : 2 ≤ count) (hhome : Home count K s t)
    (hkey : a.key ∈ K) {free1 : List (BitVec 32)} (hmoves : Moves t t1 count free free1 s u a) :
    Home count K u t1 := by
  cases a with
  | put key value =>
    rcases hmoves with ⟨_, rfl, rfl⟩ | ⟨_, e, rfl, rfl, hput, hstore, _⟩
    · exact hhome
    · exact home_put hspread (by omega) hhome hkey hput hstore
  | del key =>
    obtain ⟨rfl, hstore, _⟩ := hmoves
    exact home_del hcount hhome hstore

theorem home_init (bytes : Buffer) (memory : ℕ → BitVec 64) :
    Home count K (machine size count bytes memory).init fun _ => (.empty : Slot (Entry size)) := by
  refine ⟨fun key _ => ?_, atHome_empty⟩
  rw [get_emptyTable]
  rfl

theorem home_of_spread (g : Geometry size count) (hcount : 2 ≤ count)
    (hspread : Spread count K) {bytes : Buffer} {memory : ℕ → BitVec 64} {as : List Call}
    (hrun : (machine size count bytes memory).RunsWith (Among K)
      (machine size count bytes memory).init as u) :
    ∃ (t : Table ℕ (Entry size)) (held : BitVec 32 → Option (Entry size))
      (free : List (BitVec 32)), Serves u.1 count t held free ∧ Home count K u t :=
  hrun.invariant
    (fun s => ∃ (t : Table ℕ (Entry size)) (held : BitVec 32 → Option (Entry size))
      (free : List (BitVec 32)), Serves s.1 count t held free ∧ Home count K s t)
    ⟨_, _, _, serves_new g bytes memory, home_init bytes memory⟩ (by
      rintro s a u ⟨t, held, free, h', hhome⟩ ⟨hready, hkey⟩ hstep
      obtain ⟨u', t1, held1, free1, hstep', h1, hmoves⟩ := step_serves g h' hready
      obtain rfl := Option.some.inj (hstep.symm.trans hstep')
      exact ⟨t1, held1, free1, h1, home_moves hspread hcount hhome hkey hmoves⟩)

theorem answers_of_spread (g : Geometry size count) (hcount : 2 ≤ count)
    (hspread : Spread count K) {bytes : Buffer} {memory : ℕ → BitVec 64} {as : List Call}
    (hrun : (machine size count bytes memory).RunsWith (Among K)
      (machine size count bytes memory).init as u) : Answers u := by
  obtain ⟨t, held, free, h', hhome⟩ := home_of_spread g hcount hspread hrun
  exact (answers_iff_table g h'.toSlots).mpr hhome.answers

theorem Entry.length_blocks (e : Entry size) (hsmall : e.key.length + e.value.length ≤ size) :
    e.blocks.length = 1 := by
  have hneeded := e.needed
  have hmid : e.mid.length = 0 := by
    rcases Nat.eq_zero_or_pos e.mid.length with hzero | hpos
    · exact hzero
    · have hmul : 1 * size ≤ e.mid.length * size := Nat.mul_le_mul_right size hpos
      omega
  rw [Entry.blocks, List.length_append, hmid, List.length_singleton]

theorem blocksNeeded_small {m : CncrStr} (hsize : m.m_blockSize = size) {n : ℕ} (hpos : 0 < n)
    (hsmall : n ≤ size) : m.blocksNeeded n = 1 := by
  obtain ⟨hneed, _, hlast⟩ := needed_pos n hpos (by omega) hsize
  by_contra hne
  have hmul : 1 * size ≤ (m.blocksNeeded n - 1) * size :=
    Nat.mul_le_mul_right size (by omega)
  omega

theorem ready_byte (h' : Serves s.1 count t held free) (hfree : free ≠ []) {n : ℕ}
    (hversion : s.1.m_csp.s_version = BitVec.ofNat 64 (n + 1)) (hn : n + 1 < 2 ^ 32) {key : Str}
    (hkey : 0 < key.length) (hlt : key.length < size) (hlength : key.length < 2 ^ 31)
    (byte : BitVec 8) : Ready s (.put key [byte]) := by
  have hsize := h'.stored.size_eq
  have hpos := List.length_pos_iff.mpr hfree
  refine ⟨⟨?_, Nat.one_pos, ?_⟩, ?_, ?_⟩
  · rw [hsize, Nat.mod_eq_of_lt hlt]
    omega
  · rw [List.length_singleton]
    omega
  · rw [hversion]
    intro hzero
    have htoNat : _ = 0 := congrArg BitVec.toNat hzero
    rw [BitVec.toNat_setWidth, BitVec.toNat_ofNat,
      Nat.mod_eq_of_lt (show n + 1 < 2 ^ 64 by omega), Nat.mod_eq_of_lt hn] at htoNat
    omega
  · rw [h'.stored.freeBlocks.lnkCnt h'.stored.nodup, Option.any_some, decide_eq_true_eq,
      blocksNeeded_small hsize (by rw [List.length_singleton]; omega)
        (by rw [List.length_singleton]; omega)]
    omega

theorem step_byte (g : Geometry size count) (h' : Serves s.1 count t held free) (hfree : free ≠ [])
    {n : ℕ} (hversion : s.1.m_csp.s_version = BitVec.ofNat 64 (n + 1)) (hn : n + 1 < 2 ^ 32)
    {key : Str} (hkey : 0 < key.length) (hlt : key.length < size) (hlength : key.length < 2 ^ 31)
    (byte : BitVec 8) :
    ∃ u t1 held1 free1 e, Ready s (.put key [byte]) ∧ step s (.put key [byte]) = some u ∧
      Serves u.1 count t1 held1 free1 ∧ e.key = key ∧
      ProbeTable.put Entry.key (order count) t e = some t1 ∧
      u.1.m_csp.s_version = BitVec.ofNat 64 (n + 1 + 1) ∧ free.length ≤ 1 + free1.length ∧
      u.2 = s.2.put key [byte] := by
  have hready := ready_byte h' hfree hversion hn hkey hlt hlength byte
  obtain ⟨u, t1, held1, free1, hstep, h1, hmoves⟩ := step_serves g h' hready
  rcases hmoves with ⟨hnil, _⟩ | ⟨_, e, hek, hev, hput, hstore, hver, hblocks⟩
  · exact absurd hnil hfree
  · have hsmall : e.key.length + e.value.length ≤ size := by
      rw [hek, hev, List.length_singleton]
      omega
    rw [e.length_blocks hsmall] at hblocks
    refine ⟨u, t1, held1, free1, e, hready, hstep, h1, hek, hput, ?_, hblocks, hstore⟩
    rw [hver, hversion]
    exact (BitVec.ofNat_add (n + 1) 1).symm

/-- Two keys that are looked for from one slot: the second is put again when the first is gone,
    and what it had before is still there when it is deleted. -/
theorem answers_fails (g : Geometry size count) (hcount : 3 ≤ count) {bytes : Buffer}
    {memory : ℕ → BitVec 64} {k k' : Str} (hk : k ∈ K) (hk' : k' ∈ K) (hne : k ≠ k')
    (hsame : start count k' = start count k)
    (hlength : ∀ key ∈ K, 0 < key.length ∧ key.length < size) :
    ∃ as u, (machine size count bytes memory).RunsWith (Among K)
      (machine size count bytes memory).init as u ∧ ¬ Answers u := by
  obtain ⟨hpos, hlt⟩ := hlength k hk
  obtain ⟨hpos', hlt'⟩ := hlength k' hk'
  have hroom := g.room
  have hmul : 3 * size ≤ count * size := Nat.mul_le_mul_right size hcount
  have hshort : k.length < 2 ^ 31 := by omega
  have hshort' : k'.length < 2 ^ 31 := by omega
  obtain ⟨j, rest, horder, hij⟩ : ∃ j rest, order count k = start count k :: j :: rest ∧
      start count k ≠ j := by
    have hnodup := nodup_order (m := count) k
    obtain ⟨n, rfl⟩ : ∃ n, count = n + 2 := ⟨count - 2, by omega⟩
    refine ⟨_, _, rfl, fun heq => ?_⟩
    exact (List.nodup_cons.mp hnodup).1 (heq ▸ List.mem_cons_self)
  have hsameOrder : order count k' = order count k := by
    rw [order_eq (by omega), order_eq (by omega), hsame]
  have hblocks := @FreeList.length_blocks count
  -- the blocks that are free at least, before each put
  have hstart := serves_new g bytes memory
  have hfree0 : FreeList.blocks count ≠ [] := List.ne_nil_of_length_pos (by omega)
  obtain ⟨s1, t1, held1, free1, e1, hready1, hstep1, h1, hkey1, hput1, hver1, hlen1, hstore1⟩ :=
    step_byte (s := (machine size count bytes memory).init) g hstart hfree0 rfl (by omega) hpos hlt
      hshort 0
  have hfree1 : free1 ≠ [] := List.ne_nil_of_length_pos (by omega)
  obtain ⟨s2, t2, held2, free2, e2, hready2, hstep2, h2, hkey2, hput2, hver2, hlen2, hstore2⟩ :=
    step_byte g h1 hfree1 hver1 (by omega) hpos' hlt' hshort' 0
  have hdel : k.length < 2 ^ 32 := by omega
  obtain ⟨s3, t3, held3, free3, hstep3, h3, hmoves3⟩ :=
    step_serves (a := .del k) g h2 hdel
  obtain ⟨rfl, hstore3, hver3, hlen3⟩ := hmoves3
  have hfree3 : free3 ≠ [] := List.ne_nil_of_length_pos (by omega)
  obtain ⟨s4, t4, held4, free4, e4, hready4, hstep4, h4, hkey4, hput4, hver4, hlen4, hstore4⟩ :=
    step_byte g h3 hfree3 (hver3.trans hver2) (by omega) hpos' hlt' hshort' 1
  have hdel' : k'.length < 2 ^ 32 := by omega
  obtain ⟨s5, t5, held5, free5, hstep5, h5, hmoves5⟩ :=
    step_serves (a := .del k') g h4 hdel'
  obtain ⟨rfl, hstore5, _⟩ := hmoves5
  refine ⟨[.put k [0], .put k' [0], .del k, .put k' [1], .del k'], s5, ?_, fun hanswers => ?_⟩
  · exact .next ⟨hready1, hk⟩ hstep1 (.next ⟨hready2, hk'⟩ hstep2 (.next ⟨hdel, hk⟩ hstep3
      (.next ⟨hready4, hk'⟩ hstep4 (.one ⟨hdel', hk'⟩ hstep5))))
  · have hgone := (answers_iff_table g h5.toSlots).mp hanswers k' hdel'
    rw [hstore5, Store.get_del, Option.map_eq_none_iff] at hgone
    have hsingle := get_del_eq_none.mp hgone
    rw [← hkey2] at hsingle
    have horder1 : order count e1.key = start count k :: j :: rest := by rw [hkey1, horder]
    refine not_single_of_reput horder1 ?_ hij ?_ (hkey4.trans hkey2.symm) hput1 hput2 ?_ hsingle
    · rw [hkey1, hkey2, hsameOrder]
    · rw [hkey1, hkey2]
      exact hne
    · rw [hkey1]
      exact hput4

end NvdlaVp.Simdb
