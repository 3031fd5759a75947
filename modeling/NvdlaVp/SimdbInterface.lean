import NvdlaVp.SimdbKeys
import NvdlaVp.SimdbVectors
import NvdlaVp.StoreQueries

set_option autoImplicit false

namespace NvdlaVp.Simdb
open ByteMemory BlockBytes ProbeTable KeyValueStore StoreQueries

def ascii (s : String) : Str := s.toList.map fun c => BitVec.ofNat 8 c.toNat

def SIMDB_BLOCK_SIZE : ℕ := 1024

def SIMDB_BLOCK_COUNT : ℕ := 1024

/-- `shm_db` of an adaptor that is the first to open it. -/
def shm_db (bytes : Buffer) (memory : ℕ → BitVec 64) : CncrHsh :=
  .new (BitVec.ofNat 32 SIMDB_BLOCK_COUNT) (.new SIMDB_BLOCK_SIZE SIMDB_BLOCK_COUNT bytes) memory
    true

/-- The calls of `get`, `put` and `del` for keys that have names; of what is read only the
    first element counts. -/
def vectors {κ ν : Type*} (T : Pod ν) (name : κ → Str) : Interface CncrHsh κ ν where
  get h k := (h.getVec T (name k)).map fun r => (r.1.head?, r.2)
  put h k v := (h.putVec T (name k) [v]).map fun r => r.2
  del h k := (h.delStr (name k)).map fun r => r.2

/-- Keys for which the memory is a map: each has room in a block for itself and a value, and a
    slot of its own at which it is looked for. -/
structure Named {κ ν : Type*} (T : Pod ν) (name : κ → Str) (K : List Str) (size count : ℕ) :
    Prop where
  geometry : Geometry size count
  many : K.length < count
  two : 2 ≤ count
  mem : ∀ k, name k ∈ K
  inj : Function.Injective name
  spread : Spread count K
  pos : ∀ k, 0 < (name k).length
  small : ∀ k, (name k).length + T.sizeOf ≤ size

variable {size count : ℕ} {h : CncrHsh} {t t1 : Table ℕ (Entry size)}
  {held : BitVec 32 → Option (Entry size)} {free : List (BitVec 32)} {K : List Str}
  {s u : CncrHsh × Store Str Str} {a : Call}

/-- Each entry has one block. -/
def Small (t : Table ℕ (Entry size)) : Prop :=
  ∀ i e, t i = .full e → e.key.length + e.value.length ≤ size

theorem small_moves {free1 : List (BitVec 32)} (hsmall : Small t)
    (hmoves : Moves t t1 count free free1 s u a)
    (hput : ∀ key value, a = .put key value → key.length + value.length ≤ size) : Small t1 := by
  intro i e he
  cases a with
  | put key value =>
    rcases hmoves with ⟨_, rfl, _⟩ | ⟨_, e', rfl, rfl, htable, _⟩
    · exact hsmall i e he
    · rcases mem_put htable he with rfl | hold
      · exact hput _ _ rfl
      · exact hsmall i e hold
  | del key =>
    obtain ⟨rfl, _⟩ := hmoves
    exact hsmall i e (mem_del he)

theorem room (g : Geometry size count) (h' : Serves h count t held free)
    (hhome : AtHome Entry.key (order count) (· ∈ K) t) (hsmall : Small t) :
    count ≤ free.length + K.length := by
  have hcount := g.count_lt
  have hsub : List.range count ⊆
      free.map BitVec.toNat ++ K.map fun k => (h.load (start count k)).idx.toNat := by
    intro n hn
    have hn' := List.mem_range.mp hn
    have htoNat : (BitVec.ofNat 32 n).toNat = n := by
      rw [BitVec.toNat_ofNat, Nat.mod_eq_of_lt (by omega)]
    rw [List.mem_append]
    rcases (h'.stored.within (BitVec.ofNat 32 n)).mp (by rwa [htoNat]) with
      hfree | ⟨st, e, hst, hmem⟩
    · exact .inl (List.mem_map.mpr ⟨_, hfree, htoNat⟩)
    · obtain ⟨i, _, hi, hidx⟩ := h'.placed st e hst
      have hlength := e.length_blocks (hsmall i e hi)
      obtain ⟨b, hb⟩ := List.length_eq_one_iff.mp hlength
      have hst_mem := (h'.stored.holds st e hst).st_mem
      rw [hb, List.mem_singleton] at hmem hst_mem
      have hslot : i = start count e.key :=
        Option.some.inj ((hhome.first i e hi).symm.trans (head_order g.pos e.key))
      refine .inr (List.mem_map.mpr ⟨e.key, hhome.known i e hi, ?_⟩)
      rw [← hslot, hidx, hst_mem, ← hmem, htoNat]
  have hle := (List.Nodup.subperm List.nodup_range hsub).length_le
  rwa [List.length_range, List.length_append, List.length_map, List.length_map] at hle

section Standing
variable {κ ν : Type*} {T : Pod ν} {name : κ → Str} {m : Store κ ν} {n : ℕ}

/-- The memory after `n` calls of `put`, and the map that it stands for; `bytes` is what the map
    is for the memory itself. -/
structure Standing (T : Pod ν) (name : κ → Str) (K : List Str) (count n : ℕ) (h : CncrHsh)
    (m : Store κ ν) (t : Table ℕ (Entry size)) (held : BitVec 32 → Option (Entry size))
    (free : List (BitVec 32)) (bytes : Store Str Str) : Prop where
  serves : Serves h count t held free
  home : Home count K (h, bytes) t
  small : Small t
  image : ∀ k, bytes.get (name k) = (m.get k).map T.image
  version : h.m_csp.s_version = BitVec.ofNat 64 (n + 1)

def Related (T : Pod ν) (name : κ → Str) (K : List Str) (size count n : ℕ) (h : CncrHsh)
    (m : Store κ ν) : Prop :=
  ∃ (t : Table ℕ (Entry size)) (held : BitVec 32 → Option (Entry size))
    (free : List (BitVec 32)) (bytes : Store Str Str),
    Standing T name K count n h m t held free bytes

theorem images_singleton (v : ν) : T.images [v] = T.image v := by
  rw [Pod.images, List.flatMap_cons, List.flatMap_nil, List.append_nil]

theorem head_vector (v : ν) :
    (T.vector (bytesOf (T.image v)) (T.image v).length).head? = some v := by
  rw [← images_singleton v, T.vector_images, List.singleton_append, List.head?_cons]

theorem Standing.ready {bytes : Store Str Str} (hnamed : Named T name K size count)
    (hn : n < 2 ^ 32 - 2) (hs : Standing T name K count n h m t held free bytes) (k : κ) (v : ν) :
    Ready (h, bytes) (.put (name k) (T.image v)) := by
  have hroom := room hnamed.geometry hs.serves hs.home.atHome hs.small
  have hmany := hnamed.many
  have hpos := hnamed.pos k
  have hsmall := hnamed.small k
  have hpod := T.size_pos
  have hlength := T.length_image v
  have hsize := hs.serves.stored.size_eq
  have hgeometry := hnamed.geometry.room
  have hmul : 2 * size ≤ count * size := Nat.mul_le_mul_right size hnamed.two
  refine ⟨⟨?_, ?_, ?_⟩, ?_, ?_⟩
  · rw [hsize, Nat.mod_eq_of_lt (by omega)]
    omega
  · omega
  · omega
  · change h.m_csp.s_version.setWidth 32 ≠ 0
    rw [hs.version]
    intro hzero
    have htoNat : _ = 0 := congrArg BitVec.toNat hzero
    rw [BitVec.toNat_setWidth, BitVec.toNat_ofNat,
      Nat.mod_eq_of_lt (show n + 1 < 2 ^ 64 by omega), Nat.mod_eq_of_lt (by omega)] at htoNat
    omega
  · have hneed := blocksNeeded_small hsize (n := (name k).length + (T.image v).length)
      (by omega) (by omega)
    change h.m_csp.s_cl.lnkCnt.any _
    rw [hs.serves.stored.freeBlocks.lnkCnt hs.serves.stored.nodup, Option.any_some,
      decide_eq_true_eq]
    refine .inr ?_
    change h.m_csp.blocksNeeded _ ≤ _
    rw [hneed]
    omega

theorem Named.length_lt (hnamed : Named T name K size count) (k : κ) :
    (name k).length < 2 ^ 32 := by
  have hsmall := hnamed.small k
  have hpod := T.size_pos
  have hroom := hnamed.geometry.room
  have hmul : 2 * size ≤ count * size := Nat.mul_le_mul_right size hnamed.two
  omega

theorem related_get (hnamed : Named T name K size count)
    (h' : Related T name K size count n h m) (k : κ) :
    (vectors T name).get h k = some (m.get k, h) := by
  obtain ⟨t, held, free, bytes, hs⟩ := h'
  have hlength := hnamed.length_lt k
  have htable := hs.home.answers (name k) hlength
  rw [show (h, bytes).2 = bytes from rfl, hs.image k] at htable
  have hread := getVec_slots hnamed.geometry hs.serves.toSlots T hlength
  simp only [vectors, hread, Option.map_some]
  cases hget : ProbeTable.get Entry.key (order count) t (name k) with
  | none =>
    rw [hget, Option.map_none] at htable
    rw [Option.map_eq_none_iff.mp htable.symm]
    rfl
  | some e =>
    rw [hget, Option.map_some] at htable
    obtain ⟨v, hv, himage⟩ := Option.map_eq_some_iff.mp htable.symm
    rw [hv, Option.elim_some, ← himage, head_vector]

theorem related_new (hnamed : Named T name K size count) (bytes : Buffer)
    (memory : ℕ → BitVec 64) : Related T name K size count 0
      (.new (BitVec.ofNat 32 count) (.new size count bytes) memory true) .empty := by
  refine ⟨_, _, _, .empty, serves_new hnamed.geometry bytes memory, home_init bytes memory, ?_, ?_,
    rfl⟩
  · intro i e he
    exact absurd he (by simp)
  · intro k
    rfl

variable [DecidableEq κ]

theorem related_put (hnamed : Named T name K size count) (hn : n < 2 ^ 32 - 2)
    (h' : Related T name K size count n h m) (k : κ) (v : ν) :
    ∃ h1, (vectors T name).put h k v = some h1 ∧
      Related T name K size count (n + 1) h1 (m.put k v) := by
  obtain ⟨t, held, free, bytes, hs⟩ := h'
  have hpos := hnamed.geometry.pos
  have hmany := hnamed.many
  have hroom := room hnamed.geometry hs.serves hs.home.atHome hs.small
  obtain ⟨u, t1, held1, free1, hstep, h1, hmoves⟩ :=
    step_serves hnamed.geometry (s := (h, bytes)) hs.serves (hs.ready hnamed hn k v)
  have hhome := home_moves (a := .put (name k) (T.image v)) hnamed.spread hnamed.two hs.home
    (hnamed.mem k) hmoves
  have hsmall : Small t1 := small_moves hs.small hmoves (by
    rintro key value heq
    obtain ⟨rfl, rfl⟩ := Call.put.inj heq
    rw [T.length_image]
    exact hnamed.small k)
  obtain ⟨r, hput, hu⟩ := Option.map_eq_some_iff.mp hstep
  refine ⟨r.2, ?_, ?_⟩
  · simp only [vectors, CncrHsh.putVec_eq, images_singleton]
    rw [show h.putStr (name k) (T.image v) = some r from hput, Option.map_some]
  rcases hmoves with ⟨hnil, _⟩ | ⟨_, e, _, _, _, hstore, hver, _⟩
  · rw [hnil, List.length_nil] at hroom
    omega
  · have hur : u.1 = r.2 := by rw [← hu]
    refine ⟨t1, held1, free1, u.2, hur ▸ h1, ?_, hsmall, fun k' => ?_, ?_⟩
    · exact ⟨hhome.answers, hhome.atHome⟩
    · rw [hstore]
      by_cases hk : k' = k
      · subst hk
        rw [Store.get_put, Store.get_put, Option.map_some]
      · rw [Store.get_put_of_ne m v hk, Store.get_put_of_ne _ _ fun heq => hk (hnamed.inj heq)]
        exact hs.image k'
    · rw [← hur, hver, show (h, bytes).1 = h from rfl, hs.version]
      exact (BitVec.ofNat_add (n + 1) 1).symm

theorem related_del (hnamed : Named T name K size count)
    (h' : Related T name K size count n h m) (k : κ) :
    ∃ h1, (vectors T name).del h k = some h1 ∧
      Related T name K size count n h1 (m.del k) := by
  obtain ⟨t, held, free, bytes, hs⟩ := h'
  obtain ⟨u, t1, held1, free1, hstep, h1, hmoves⟩ :=
    step_serves hnamed.geometry (s := (h, bytes)) (a := .del (name k)) hs.serves
      (hnamed.length_lt k)
  have hhome := home_moves (a := .del (name k)) hnamed.spread hnamed.two hs.home (hnamed.mem k)
    hmoves
  have hsmall : Small t1 := small_moves hs.small hmoves nofun
  obtain ⟨_, hstore, hver, _⟩ := hmoves
  obtain ⟨r, hdel, hu⟩ := Option.map_eq_some_iff.mp hstep
  have hur : u.1 = r.2 := by rw [← hu]
  refine ⟨r.2, ?_, t1, held1, free1, u.2, hur ▸ h1, ?_, hsmall, fun k' => ?_, ?_⟩
  · simp only [vectors]
    rw [show h.delStr (name k) = some r from hdel, Option.map_some]
  · exact ⟨hhome.answers, hhome.atHome⟩
  · rw [hstore]
    by_cases hk : k' = k
    · subst hk
      rw [Store.get_del, Store.get_del, Option.map_none]
    · rw [Store.get_del_of_ne m hk, Store.get_del_of_ne _ fun heq => hk (hnamed.inj heq)]
      exact hs.image k'
  · rw [← hur, hver]
    exact hs.version

/-- The memory is the map for up to `2 ^ 32 - 2` calls of `put`. -/
theorem vectors_realize (hnamed : Named T name K size count) :
    Realizes (vectors T name) (2 ^ 32 - 2) (Related T name K size count) := by
  constructor
  · intro n h m k h'
    exact ⟨h, related_get hnamed h' k, h'⟩
  · intro n h m k v hn h'
    exact related_put hnamed hn h' k v
  · intro n h m k h'
    exact related_del hnamed h' k

end Standing

end NvdlaVp.Simdb
