import NvdlaVp.SimdbStore

set_option autoImplicit false

namespace NvdlaVp.Simdb
open ByteMemory BlockBytes ProbeTable KeyValueStore MachineRuns

abbrev Str := List (BitVec 8)

/-- `data()` and `(u32)length()` of a string. -/
def str (s : Str) : Str := s.take (s.length % 2 ^ 32)

namespace CncrHsh

def putStr (h : CncrHsh) (key value : Str) : Option (Bool × CncrHsh) := h.put (str key) (str value)

def delStr (h : CncrHsh) (key : Str) : Option (Bool × CncrHsh) := h.del (str key)

/-- The value is read into a string of the length that `len` has told. -/
def getStr (h : CncrHsh) (key : Str) : Option ((Bool × Str) × CncrHsh) :=
  (h.len (str key)).bind fun l =>
    let vlen := l.1.2.1.getD 0
    (l.2.get (str key) (fun _ => 0) vlen).map fun r =>
      ((r.1.1, (List.range vlen).map r.1.2.1), r.2)

end CncrHsh

inductive Call where
  | put (key value : Str)
  | del (key : Str)

/-- The memory beside the map. A `put` that fails changes neither. -/
def step (s : CncrHsh × Store Str Str) : Call → Option (CncrHsh × Store Str Str)
  | .put key value => (s.1.putStr key value).map fun r =>
      (r.2, if r.1 then s.2.put key value else s.2)
  | .del key => (s.1.delStr key).map fun r => (r.2, s.2.del key)

def machine (blockSize blockCount : ℕ) (bytes : Buffer) (memory : ℕ → BitVec 64) :
    Machine (CncrHsh × Store Str Str) Call where
  init := (.new (BitVec.ofNat 32 blockCount) (.new blockSize blockCount bytes) memory true, .empty)
  step := step

def answer : Option Str → Bool × Str
  | none => (false, [])
  | some value => (true, value)

def Answers (s : CncrHsh × Store Str Str) : Prop :=
  ∀ key, key.length < 2 ^ 32 → s.1.getStr key = some (answer (s.2.get key), s.1)

/-- The lengths are as the blocks need them, there are blocks enough or none at all, and the
    version that comes next is not the one of blocks that are free. -/
def Ready (s : CncrHsh × Store Str Str) : Call → Prop
  | .put key value => Fits s.1.m_csp.m_blockSize key value ∧
    s.1.m_csp.s_version.setWidth 32 ≠ (0 : BitVec 32) ∧
    s.1.m_csp.s_cl.lnkCnt.any fun n =>
      n = 0 ∨ s.1.m_csp.blocksNeeded (key.length + value.length) ≤ n
  | .del key => key.length < 2 ^ 32

instance (s : CncrHsh × Store Str Str) : (a : Call) → Decidable (Ready s a)
  | .put key value => inferInstanceAs (Decidable (Fits s.1.m_csp.m_blockSize key value ∧
      s.1.m_csp.s_version.setWidth 32 ≠ (0 : BitVec 32) ∧
      s.1.m_csp.s_cl.lnkCnt.any fun n =>
        n = 0 ∨ s.1.m_csp.blocksNeeded (key.length + value.length) ≤ n))
  | .del key => inferInstanceAs (Decidable (key.length < 2 ^ 32))

def CncrHsh.keyAt (h : CncrHsh) (i : ℕ) : Option Str :=
  let vi := h.load i
  if vi.idx < DELETED then
    let klen := (h.m_csp.s_bls vi.idx).klen
    (h.m_csp.getKey vi.idx vi.version (fun _ => 0) klen).map fun r =>
      (List.range klen).map r.1.2
  else none

def CncrHsh.InOneSlot (h : CncrHsh) (key : Str) : Prop :=
  ∀ i < h.m_sz, ∀ j < h.m_sz, h.keyAt i = some key → h.keyAt j = some key → i = j

instance (h : CncrHsh) (key : Str) : Decidable (h.InOneSlot key) :=
  Nat.decidableBallLT h.m_sz fun i _ =>
    ∀ j < h.m_sz, h.keyAt i = some key → h.keyAt j = some key → i = j

/-- The key of a deletion is in one slot at most, and it is not the last one in which the key
    is looked for. -/
def Clean (s : CncrHsh × Store Str Str) : Call → Prop
  | .put _ _ => True
  | .del key => s.1.InOneSlot key ∧ ∀ i < s.1.m_sz, s.1.keyAt i = some key →
      i ≠ s.1.prevIdx ((HashBytes key).toNat % s.1.m_sz)

instance (s : CncrHsh × Store Str Str) : (a : Call) → Decidable (Clean s a)
  | .put _ _ => inferInstanceAs (Decidable True)
  | .del key => inferInstanceAs (Decidable (s.1.InOneSlot key ∧
      ∀ i < s.1.m_sz, s.1.keyAt i = some key →
        i ≠ s.1.prevIdx ((HashBytes key).toNat % s.1.m_sz)))

variable {size count : ℕ} {h : CncrHsh} {t : Table ℕ (Entry size)}
  {held : BitVec 32 → Option (Entry size)} {free : List (BitVec 32)} {key : Str} {i : ℕ}

theorem str_of_lt {s : Str} (hs : s.length < 2 ^ 32) : str s = s := by
  rw [str, Nat.mod_eq_of_lt hs, List.take_length]

theorem answer_inj {a b : Option Str} (hab : answer a = answer b) : a = b := by
  cases a with
  | none =>
    cases b with
    | none => rfl
    | some w => exact absurd (congrArg Prod.fst hab) nofun
  | some v =>
    cases b with
    | none => exact absurd (congrArg Prod.fst hab) nofun
    | some w => rw [show v = w from congrArg Prod.snd hab]

theorem map_range_put (out : Buffer) (bytes : Str) :
    (List.range bytes.length).map (out.put 0 (bytesOf bytes) bytes.length) = bytes := by
  refine List.ext_getElem (by rw [List.length_map, List.length_range]) fun j hj hj' => ?_
  rw [List.getElem_map, List.getElem_range, Buffer.put, if_pos (by omega), Nat.sub_zero, bytesOf,
    List.getD_eq_getElem _ _ hj']

theorem Entry.key_ne (e : Entry size) : e.key ≠ [] := by
  intro hnil
  have hjagged := e.fits.jagged
  rw [hnil, List.length_nil, Nat.zero_mod] at hjagged
  exact hjagged rfl

section Reading
variable (g : Geometry size count) (h' : Slots h count t held free)
include g h'

theorem getStr_slots (hkey : key.length < 2 ^ 32) : h.getStr key =
    some (answer ((ProbeTable.get Entry.key (order count) t key).map Entry.value), h) := by
  rw [CncrHsh.getStr, str_of_lt hkey]
  by_cases hnil : key = []
  · subst hnil
    have hnone : ProbeTable.get Entry.key (order count) t [] = none := by
      rw [Option.eq_none_iff_forall_ne_some]
      exact fun e he => e.key_ne (key_of_get he)
    rw [hnone]
    rfl
  · rw [len_slots g h' hnil]
    have hread : h.get key (fun _ => 0) _ = _ := get_slots g h' hnil
    cases hget : ProbeTable.get Entry.key (order count) t key with
    | none =>
      rw [hget, Option.elim_none] at hread
      simp only [Option.bind_some, Option.getD_none, hread, Option.map_some, Option.map_none]
      rfl
    | some e =>
      rw [hget, Option.elim_some] at hread
      simp only [Option.bind_some, Option.getD_some, hread, Option.map_some, map_range_put]
      rfl

theorem answers_iff_table {m : Store Str Str} : Answers (h, m) ↔ ∀ key, key.length < 2 ^ 32 →
    (ProbeTable.get Entry.key (order count) t key).map Entry.value = m.get key := by
  refine forall_congr' fun key => forall_congr' fun hkey => ?_
  rw [show (h, m).1 = h from rfl, getStr_slots g h' hkey]
  constructor
  · intro heq
    exact answer_inj (Prod.mk.inj (Option.some.inj heq)).1
  · intro heq
    rw [heq]

theorem keyAt_slots (hi : i < count) (key : Str) :
    h.keyAt i = some key ↔ (t i).holds Entry.key key := by
  rw [CncrHsh.keyAt]
  by_cases hfree : (t i).isFree
  · have hle := h'.free_le hi hfree
    simp only [if_neg (show ¬ (h.load i).idx < DELETED by rwa [BitVec.not_lt])]
    exact ⟨fun hnone => absurd hnone.symm (Option.some_ne_none key),
      fun hholds => absurd hholds (Slot.not_holds_of_isFree hfree)⟩
  · obtain ⟨e, he⟩ := Slot.of_not_isFree hfree
    have hstands := h'.stands i hi
    rw [he] at hstands
    obtain ⟨hheld, hver, _⟩ := hstands
    have hholds := h'.stored.holds _ e hheld
    simp only [if_pos (h'.idx_lt g hi he), hver, hholds.klen, getKey_held hholds (le_refl _),
      Option.map_some, map_range_put]
    rw [he, Slot.holds_full, Option.some.injEq]

theorem clean_iff_single {m : Store Str Str} :
    Clean (h, m) (.del key) ↔ Single Entry.key (order count) t key := by
  have hends := h'.ends g key
  have hdrop : ∀ j, j ∈ (order count key).dropLast ↔
      j ∈ order count key ∧ j ≠ h.prevIdx ((HashBytes key).toNat % count) := by
    intro j
    rw [h'.sz] at hends
    exact hends.mem_dropLast
  have hkeys := fun j hj => keyAt_slots g h' (i := j) hj key
  rw [Clean, CncrHsh.InOneSlot]
  simp only [h'.sz]
  constructor
  · rintro ⟨honce, hlast⟩
    refine ⟨fun i hi j hj hki hkj => ?_, fun i hi hki => ?_⟩
    · have hi' := mem_order.mp hi
      have hj' := mem_order.mp hj
      exact honce i hi' j hj' ((hkeys i hi').mpr hki) ((hkeys j hj').mpr hkj)
    · have hi' := mem_order.mp hi
      exact (hdrop i).mpr ⟨hi, hlast i hi' ((hkeys i hi').mpr hki)⟩
  · intro hsingle
    refine ⟨fun i hi j hj hki hkj => ?_, fun i hi hki => ?_⟩
    · exact hsingle.once i (mem_order.mpr hi) j (mem_order.mpr hj) ((hkeys i hi).mp hki)
        ((hkeys j hj).mp hkj)
    · exact ((hdrop i).mp (hsingle.notLast i (mem_order.mpr hi) ((hkeys i hi).mp hki))).2

end Reading

section Runs
variable {s u : CncrHsh × Store Str Str} {a : Call}

def Moves (t t1 : Table ℕ (Entry size)) (count : ℕ) (free free1 : List (BitVec 32))
    (s u : CncrHsh × Store Str Str) : Call → Prop
  | .put key value => free = [] ∧ t1 = t ∧ u = s ∨ free ≠ [] ∧ ∃ e, e.key = key ∧
    e.value = value ∧ ProbeTable.put Entry.key (order count) t e = some t1 ∧
    u.2 = s.2.put key value ∧ u.1.m_csp.s_version = s.1.m_csp.s_version + 1 ∧
    free.length ≤ e.blocks.length + free1.length
  | .del key => t1 = ProbeTable.del Entry.key (order count) t key ∧ u.2 = s.2.del key ∧
    u.1.m_csp.s_version = s.1.m_csp.s_version ∧ free.length ≤ free1.length

theorem step_serves (g : Geometry size count) (h' : Serves s.1 count t held free)
    (hready : Ready s a) : ∃ u t1 held1 free1, step s a = some u ∧
      Serves u.1 count t1 held1 free1 ∧ Moves t t1 count free free1 s u a := by
  cases a with
  | put key value =>
    obtain ⟨hfits, hver, hroom⟩ := hready
    rw [h'.stored.size_eq] at hfits
    have hkey : str key = key := str_of_lt (by have := hfits.length_lt; omega)
    have hvalue : str value = value := str_of_lt (by have := hfits.length_lt; omega)
    rw [h'.stored.freeBlocks.lnkCnt h'.stored.nodup, Option.any_some, decide_eq_true_eq] at hroom
    rcases hroom with hnone | henough
    · obtain rfl := List.eq_nil_of_length_eq_zero hnone
      refine ⟨s, t, held, [], ?_, h', .inl ⟨rfl, rfl, rfl⟩⟩
      simp only [step, CncrHsh.putStr, hkey, hvalue, put_full h', Option.map_some,
        Bool.false_eq_true, if_false]
    · obtain ⟨h1, held1, free1, t1, e, hput, rfl, rfl, htable, hserves, hversion, hlength⟩ :=
        put_serves g h' hfits hver henough
      refine ⟨(h1, s.2.put e.key e.value), t1, held1, free1, ?_, hserves,
        .inr ⟨?_, e, rfl, rfl, htable, rfl, hversion, hlength⟩⟩
      · simp only [step, CncrHsh.putStr, hkey, hvalue, hput, Option.map_some, if_true]
      · rintro rfl
        have hsize := g.size_gt
        have hpos := hfits.value_pos
        have hneed := (needed_pos _ (Nat.lt_add_left e.key.length hpos) (by omega)
          h'.stored.size_eq).1
        rw [List.length_nil] at henough
        omega
  | del key =>
    obtain ⟨h1, held1, free1, hdel, hserves, hversion, hlength⟩ := del_serves g h' key
    refine ⟨(h1, s.2.del key), _, held1, free1, ?_, hserves, rfl, rfl, hversion, hlength⟩
    simp only [step, CncrHsh.delStr, str_of_lt hready, hdel, Option.map_some]

def Served (size count : ℕ) (s : CncrHsh × Store Str Str) : Prop :=
  ∃ (t : Table ℕ (Entry size)) (held : BitVec 32 → Option (Entry size)) (free : List (BitVec 32)),
    Serves s.1 count t held free

theorem served_of_ready (g : Geometry size count) {bytes : Buffer} {memory : ℕ → BitVec 64}
    {as : List Call} (hrun : (machine size count bytes memory).RunsWith Ready
      (machine size count bytes memory).init as u) : Served size count u :=
  hrun.invariant _ ⟨_, _, _, serves_new g bytes memory⟩ (by
    rintro s a u ⟨t, held, free, h'⟩ hready hstep
    obtain ⟨u', t1, held1, free1, hstep', h1, _⟩ := step_serves g h' hready
    obtain rfl := Option.some.inj (hstep.symm.trans hstep')
    exact ⟨t1, held1, free1, h1⟩)

theorem put_value {e : Entry size} {t1 : Table ℕ (Entry size)} {m : Store Str Str}
    (hput : ProbeTable.put Entry.key (order count) t e = some t1)
    (hanswers : ∀ key, key.length < 2 ^ 32 →
      (ProbeTable.get Entry.key (order count) t key).map Entry.value = m.get key)
    (hkey : key.length < 2 ^ 32) :
    (ProbeTable.get Entry.key (order count) t1 key).map Entry.value =
      (m.put e.key e.value).get key := by
  have hstore : ProbeTable.get Entry.key (order count) t1 key =
      ((toStore Entry.key (order count) t).put e.key e).get key :=
    congrFun (toStore_put hput) key
  rw [hstore]
  by_cases heq : key = e.key
  · subst heq
    rw [Store.get_put, Store.get_put, Option.map_some]
  · rw [Store.get_put_of_ne m _ heq, Store.get_put_of_ne _ _ heq, ← hanswers key hkey]
    rfl

theorem del_value {k : Str} {m : Store Str Str} (hsingle : Single Entry.key (order count) t k)
    (hanswers : ∀ key, key.length < 2 ^ 32 →
      (ProbeTable.get Entry.key (order count) t key).map Entry.value = m.get key)
    (hkey : key.length < 2 ^ 32) :
    (ProbeTable.get Entry.key (order count) (ProbeTable.del Entry.key (order count) t k) key).map
      Entry.value = (m.del k).get key := by
  have hstore : ProbeTable.get Entry.key (order count)
      (ProbeTable.del Entry.key (order count) t k) key =
      ((toStore Entry.key (order count) t).del k).get key :=
    congrFun (toStore_del_iff.mpr hsingle) key
  rw [hstore]
  by_cases heq : key = k
  · subst heq
    rw [Store.get_del, Store.get_del, Option.map_none]
  · rw [Store.get_del_of_ne m heq, Store.get_del_of_ne _ heq, ← hanswers key hkey]
    rfl

/-- The key of the second entry is put again once the first slot of its order is free, and
    its old value comes back when it is deleted. -/
example : ((machine 8 4 (fun _ => 0) fun _ => 0).exec Ready
    (machine 8 4 (fun _ => 0) fun _ => 0).init
    [.put [1] [2], .put [5] [9, 9], .del [1], .put [5] [7], .del [5]]).any (fun s =>
      (s.1.getStr [5]).any fun r => r.1 = answer (some [9, 9])) = true := by
  decide +kernel

/-- A call is ready, and a value is put only for a key that has none, and not into the last free
    block. -/
def Mailbox (s : CncrHsh × Store Str Str) (a : Call) : Prop :=
  Ready s a ∧ match a with
    | .put key _ => s.2.get key = none ∧ s.1.m_csp.s_cl.lnkCnt.any fun n => n ≠ 1
    | .del _ => True

instance (s : CncrHsh × Store Str Str) : (a : Call) → Decidable (Mailbox s a)
  | .put key value => inferInstanceAs (Decidable (Ready s (.put key value) ∧
      s.2.get key = none ∧ s.1.m_csp.s_cl.lnkCnt.any fun n => n ≠ 1))
  | .del key => inferInstanceAs (Decidable (Ready s (.del key) ∧ True))

/-- The table answers for the map, and each key could be deleted. -/
structure Neat (count : ℕ) (s : CncrHsh × Store Str Str) (t : Table ℕ (Entry size)) : Prop where
  answers : ∀ key, key.length < 2 ^ 32 →
    (ProbeTable.get Entry.key (order count) t key).map Entry.value = s.2.get key
  single : ∀ key, Single Entry.key (order count) t key

theorem neat_put {e : Entry size} {t1 : Table ℕ (Entry size)} (h' : Serves s.1 count t held free)
    (hneat : Neat count s t) (habsent : s.2.get e.key = none) (hfree : 2 ≤ free.length)
    (hput : ProbeTable.put Entry.key (order count) t e = some t1)
    (hstore : u.2 = s.2.put e.key e.value) : Neat count u t1 := by
  have hlength := e.fits.length_lt
  have hnone := hneat.answers e.key (by omega)
  rw [habsent, Option.map_eq_none_iff] at hnone
  refine ⟨fun key hkey => ?_, fun key => ?_⟩
  · rw [hstore]
    exact put_value hput hneat.answers hkey
  · obtain ⟨i, hplace, rfl⟩ := Option.map_eq_some_iff.mp hput
    exact single_put (hneat.single key) hplace hnone (placeOf_notLast h' hfree hplace)

end Runs

end NvdlaVp.Simdb
