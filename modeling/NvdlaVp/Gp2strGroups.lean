import NvdlaVp.Gp2str

set_option autoImplicit false

namespace NvdlaVp.Gp2str
open Numerals

abbrev Entry := Option (BitVec 8)

def starts : ℕ → List (List Entry) → List ℕ
  | _, [] => []
  | i, g :: gs => i :: starts (i + g.length) gs

namespace Payload
variable (p : Payload)

def enabled (i : ℕ) : Bool :=
  match p.byte_enable_ptr with
  | none => true
  | some be => be.val[i % p.byte_enable_length.toNat]? = some 0xff

def entry (i : ℕ) : Entry := if p.enabled i then p.data[i]? else none

structure Passes : Prop where
  byte_enable : p.byte_enable_ptr.isSome ↔ p.byte_enable_length ≠ 0
  data : p.data_ptr.isSome ∨ p.data_length = 0

def entries : ℕ → ℕ → List Entry
  | 0, _ => []
  | n + 1, i => p.entry i :: entries n (i + 1)

def groupsFrom : ℕ → ℕ → List (List Entry)
  | 0, _ => []
  | n + 4, i => p.entries 4 i :: groupsFrom n (i + 4)
  | n, i => [p.entries n i]

def groups : List (List Entry) :=
  if p.address.toNat % 4 ≠ 0 then
    p.entries p.headBytes 0 :: p.groupsFrom (p.data_length.toNat - p.headBytes) p.headBytes
  else p.groupsFrom p.data_length.toNat 0

end Payload

def showByte : Entry → List Char
  | none => ['X', 'X']
  | some b => padded 16 2 b.toNat

def showBytes (es : List Entry) : List Char := ['_'].intercalate (es.map showByte)

def wordValue : List Entry → ℕ
  | [] => 0
  | e :: es => (e.getD 0).toNat + 256 * wordValue es

/-- Four enabled bytes are shown as a word. -/
def showGroup (es : List Entry) : List Char :=
  if es.length = 4 ∧ es.all Option.isSome then padded 16 8 (wordValue es)
  else showBytes es

def showGroups (gs : List (List Entry)) : List Char := gs.flatMap fun g => ' ' :: showGroup g

theorem showBytes_cons (e : Entry) (es : List Entry) :
    showBytes (e :: es) = showByte e ++ es.flatMap fun e => '_' :: showByte e := by
  induction es generalizing e with
  | nil => simp [showBytes]
  | cons e' es ih =>
    have htail : showBytes (e' :: es) = showByte e' ++ es.flatMap fun e => '_' :: showByte e :=
      ih e'
    simp only [showBytes, List.map_cons, List.intercalate_cons_cons] at htail ⊢
    rw [htail]
    simp

namespace Payload
variable {p : Payload} {n i : ℕ}

theorem length_entries (n i : ℕ) : (p.entries n i).length = n := by
  induction n generalizing i with
  | zero => rfl
  | succ n ih => simp [entries, ih]

theorem length_data (h : p.Passes) : p.data.length = p.data_length.toNat := by
  unfold data
  cases hptr : p.data_ptr with
  | none =>
    have hzero : p.data_length = 0 := h.data.resolve_left (by simp [hptr])
    simp [hzero]
  | some xs => exact xs.property

theorem getBe_eq (h : p.Passes) (i : ℕ) : p.getBe i = some (p.enabled i) := by
  unfold getBe enabled
  cases hptr : p.byte_enable_ptr with
  | none => rfl
  | some be =>
    have hne : p.byte_enable_length ≠ 0 := h.byte_enable.mp (by simp [hptr])
    have hpos : 0 < p.byte_enable_length.toNat := by
      rw [Nat.pos_iff_ne_zero]
      exact fun h0 => hne (BitVec.eq_of_toNat_eq (by simpa using h0))
    have hlt : i % p.byte_enable_length.toNat < be.val.length := by
      rw [be.property]
      exact Nat.mod_lt _ hpos
    simp only [if_neg hne, List.getElem?_eq_getElem hlt, Option.map_some, Option.some.injEq]

theorem getByte_eq (hi : i < p.data.length) (first : Bool) :
    p.getByte i (p.enabled i) first =
      some ((if first then [] else ['_']) ++ showByte (p.entry i)) := by
  unfold getByte entry
  cases p.enabled i with
  | false => rfl
  | true => simp [List.getElem?_eq_getElem hi, showByte]

theorem byteLoop_false (h : p.Passes) (hi : i + n ≤ p.data.length) :
    p.byteLoop n i false = some ((p.entries n i).flatMap fun e => '_' :: showByte e) := by
  induction n generalizing i with
  | zero => rfl
  | succ n ih =>
    have hlt : i < p.data.length := by omega
    have hrest := ih (i := i + 1) (by omega)
    simp [byteLoop, entries, getBe_eq h, getByte_eq hlt, hrest]

theorem byteLoop_eq (h : p.Passes) (hi : i + n ≤ p.data.length) :
    p.byteLoop n i true = some (showBytes (p.entries n i)) := by
  cases n with
  | zero => rfl
  | succ n =>
    have hlt : i < p.data.length := by omega
    have hrest := byteLoop_false h (i := i + 1) (n := n) (by omega)
    simp [byteLoop, entries, getBe_eq h, getByte_eq hlt, showBytes_cons, hrest]

theorem isSome_entry (hi : i < p.data.length) : (p.entry i).isSome = p.enabled i := by
  unfold entry
  cases p.enabled i with
  | false => rfl
  | true => simp [hi]

theorem wordEnable_eq (h : p.Passes) (hi : i + n ≤ p.data.length) :
    p.wordEnable n i = some ((p.entries n i).all Option.isSome) := by
  induction n generalizing i with
  | zero => rfl
  | succ n ih =>
    have hlt : i < p.data.length := by omega
    have hrest := ih (i := i + 1) (by omega)
    simp [wordEnable, entries, getBe_eq h, isSome_entry hlt, hrest]

theorem load_eq (hi : i + n ≤ p.data.length) (hall : (p.entries n i).all Option.isSome) :
    p.load n i = some (wordValue (p.entries n i)) := by
  induction n generalizing i with
  | zero => rfl
  | succ n ih =>
    simp only [entries, List.all_cons, Bool.and_eq_true] at hall
    have hlt : i < p.data.length := by omega
    have hentry : p.entry i = some p.data[i] := by
      have henabled : p.enabled i = true := (isSome_entry hlt).symm.trans hall.1
      simp [entry, henabled, List.getElem?_eq_getElem hlt]
    have hrest := ih (i := i + 1) (by omega) hall.2
    simp [load, entries, hentry, List.getElem?_eq_getElem hlt, hrest, wordValue]

theorem wordLoop_eq (h : p.Passes) (hi : i + n ≤ p.data.length) :
    p.wordLoop n i = some (showGroups (p.groupsFrom n i)) := by
  induction n, i using wordLoop.induct with
  | case1 => rfl
  | case2 n i ih =>
    have hrest := ih (by omega)
    have henable := wordEnable_eq h (n := 4) (i := i) (by omega)
    cases hall : (p.entries 4 i).all Option.isSome with
    | false =>
      have hbytes := byteLoop_eq h (n := 4) (i := i) (by omega)
      have hgroup : showGroup (p.entries 4 i) = showBytes (p.entries 4 i) :=
        if_neg fun hword => absurd (hall.symm.trans hword.2) (by decide)
      simp only [wordLoop, groupsFrom, henable, hall, hbytes, hrest, showGroups, hgroup,
        List.flatMap_cons, Option.bind_eq_bind, Option.bind_some, Bool.false_eq_true, if_false]
    | true =>
      have hload := load_eq (p := p) (n := 4) (i := i) (by omega) hall
      have hgroup : showGroup (p.entries 4 i) = padded 16 8 (wordValue (p.entries 4 i)) :=
        if_pos ⟨length_entries 4 i, hall⟩
      simp only [wordLoop, groupsFrom, henable, hall, hload, hrest, showGroups, hgroup,
        List.flatMap_cons, Option.bind_eq_bind, Option.bind_some, Option.map_some, if_true]
  | case3 n i hne hne' =>
    have hbytes := byteLoop_eq h hi
    have hshort : n ≠ 4 := by
      rintro rfl
      exact hne' 0 rfl
    rw [wordLoop, groupsFrom, hbytes]
    · simp [showGroups, showGroup, length_entries, hshort]
    all_goals assumption

theorem data_oss_eq (h : p.Passes) : p.data_oss = some ('0' :: 'x' :: showGroups p.groups) := by
  have hlen := length_data h
  unfold data_oss groups
  by_cases halign : p.address.toNat % 4 ≠ 0
  · have hle : p.headBytes ≤ 3 := by
      unfold headBytes
      omega
    have hhead : p.headBytes ≤ p.data_length.toNat := Nat.min_le_right _ _
    have hgroup : showGroup (p.entries p.headBytes 0) = showBytes (p.entries p.headBytes 0) :=
      if_neg fun hword => by
        rw [length_entries] at hword
        omega
    have hbytes := byteLoop_eq h (n := p.headBytes) (i := 0) (by omega)
    have hwords := wordLoop_eq h (n := p.data_length.toNat - p.headBytes) (i := p.headBytes)
      (by omega)
    rw [if_pos halign, if_pos halign, hbytes, hwords]
    simp [showGroups, hgroup]
  · have hwords := wordLoop_eq h (n := p.data_length.toNat) (i := 0) (by omega)
    rw [if_neg halign, if_neg halign, hwords]
    rfl

theorem entries_append (m n i : ℕ) :
    p.entries m i ++ p.entries n (i + m) = p.entries (m + n) i := by
  induction m generalizing i with
  | zero => simp [entries]
  | succ m ih =>
    have hrest := ih (i + 1)
    rw [show i + 1 + m = i + (m + 1) by omega] at hrest
    rw [show m + 1 + n = m + n + 1 by omega, entries, entries, List.cons_append, hrest]

theorem getElem?_entries {n i j : ℕ} (hj : j < n) :
    (p.entries n i)[j]? = some (p.entry (i + j)) := by
  induction n generalizing i j with
  | zero => omega
  | succ n ih =>
    cases j with
    | zero => rfl
    | succ j =>
      have hrest := ih (i := i + 1) (j := j) (by omega)
      rw [show i + 1 + j = i + (j + 1) by omega] at hrest
      simpa [entries] using hrest

theorem flatten_groupsFrom (n i : ℕ) : (p.groupsFrom n i).flatten = p.entries n i := by
  induction n, i using groupsFrom.induct with
  | case1 => rfl
  | case2 n i ih =>
    rw [groupsFrom, List.flatten_cons, ih, entries_append, Nat.add_comm]
  | case3 n i hne hne' =>
    rw [groupsFrom]
    · simp
    all_goals assumption

theorem flatten_groups (p : Payload) : p.groups.flatten = p.entries p.data_length.toNat 0 := by
  unfold groups
  split
  · have hhead : p.headBytes ≤ p.data_length.toNat := Nat.min_le_right _ _
    have happ := entries_append (p := p) p.headBytes (p.data_length.toNat - p.headBytes) 0
    rw [Nat.zero_add, Nat.add_sub_cancel' hhead] at happ
    rw [List.flatten_cons, flatten_groupsFrom, happ]
  · exact flatten_groupsFrom _ _

theorem mem_starts_groupsFrom {a n i j : ℕ} (hi : (a + i) % 4 = 0) :
    j ∈ starts i (p.groupsFrom n i) ↔ i ≤ j ∧ j < i + n ∧ (a + j) % 4 = 0 := by
  induction n, i using groupsFrom.induct with
  | case1 i =>
    simp only [groupsFrom, starts, List.not_mem_nil, false_iff]
    omega
  | case2 n i ih =>
    rw [groupsFrom, starts, List.mem_cons, length_entries, ih (by omega)]
    omega
  | case3 n i hne hne' =>
    have hpos : n ≠ 0 := hne
    have hshort : n < 4 := by
      by_contra hge
      exact hne' (n - 4) (by omega)
    rw [groupsFrom]
    · simp only [starts, List.mem_singleton]
      omega
    all_goals assumption

theorem mem_starts_groups {j : ℕ} (hpos : 0 < j) (hj : j < p.data_length.toNat) :
    j ∈ starts 0 p.groups ↔ (p.address.toNat + j) % 4 = 0 := by
  unfold groups
  split
  · rename_i halign
    rw [starts, List.mem_cons, length_entries, Nat.zero_add]
    by_cases hfull : 4 - p.address.toNat % 4 ≤ p.data_length.toNat
    · have hhead : p.headBytes = 4 - p.address.toNat % 4 := Nat.min_eq_left hfull
      rw [mem_starts_groupsFrom (a := p.address.toNat) (by omega)]
      omega
    · have hhead : p.headBytes = p.data_length.toNat := Nat.min_eq_right (by omega)
      rw [hhead, Nat.sub_self, groupsFrom]
      simp only [starts, List.not_mem_nil, or_false]
      omega
  · rename_i halign
    rw [mem_starts_groupsFrom (a := p.address.toNat) (by omega)]
    omega

end Payload
end NvdlaVp.Gp2str
