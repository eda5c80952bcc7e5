import NervFS.Listings
import Mathlib.Data.List.Range
import Mathlib.Data.Nat.Bitwise

/-!
The two passes of `handle_list` over the entries, both in 32 bits: the length that the first
sums up and the places that the second writes to. They agree exactly when the encoding is
shorter than 2^32 bytes. A longer one is written past the buffer.
-/
namespace NervFS.ListPasses

open Programs Calls Protocol FileOps Handlers Requests Listings

/-- A write into the payload: its offset and the number of its bytes. -/
structure Write where
  off : UInt32
  len : ℕ

/-- Every index that is written is below the size of the buffer. -/
def Write.Inside (size : UInt32) (w : Write) : Prop := ∀ i < w.len, w.off.toNat + i < size.toNat

/-- The loop of the second pass: its writes and the offset that it ends with. -/
def secondPass : UInt32 → List Dirent → List Write × UInt32
  | off, [] => ([], off)
  | off, e :: es =>
    let nlen := UInt16.ofNat e.name.length
    let nameOff := off + 2
    let sizeOff := nameOff + nlen.toUInt32
    let modeOff := sizeOff + 8
    let rest := secondPass (modeOff + 4) es
    (⟨off, 2⟩ :: ⟨nameOff, nlen.toNat⟩ :: ⟨sizeOff, 8⟩ :: ⟨modeOff, 4⟩ :: rest.1, rest.2)

def listWrites (entries : List Dirent) : List Write := ⟨0, 4⟩ :: (secondPass 4 entries).1

def finalOffset (entries : List Dirent) : UInt32 := (secondPass 4 entries).2

/-- The true length of the encoding. -/
def encodedLength (entries : List Dirent) : ℕ :=
  4 + (entries.map fun e => 2 + e.name.length + 12).sum

structure PassesAgree (entries : List Dirent) : Prop where
  sum : (listPayloadLen entries).toNat = encodedLength entries
  inside : ∀ w ∈ listWrites entries, w.Inside (listPayloadLen entries)
  final : finalOffset entries = listPayloadLen entries

theorem encodedLength_eq (entries : List Dirent) :
    encodedLength entries = (listBody entries).length := by
  have hsum : ∀ es : List Dirent,
      (es.map fun e => 2 + e.name.length + 12).sum = (es.flatMap encodeDirent).length := by
    intro es
    induction es with
    | nil => rfl
    | cons e es ih =>
      have hlen := encodeDirent_length e
      rw [List.map_cons, List.sum_cons, ih, List.flatMap_cons, List.length_append]
      omega
  unfold encodedLength
  rw [listBody_length, hsum]

theorem nameLen_toNat {e : Dirent} (h : e.name.length ≤ nervfsMaxNameLen) :
    (UInt16.ofNat e.name.length).toNat = e.name.length := by
  unfold nervfsMaxNameLen at h
  rw [UInt16.toNat_ofNat']
  omega

theorem add_toNat (a b : UInt32) (h : a.toNat + b.toNat < 2 ^ 32) :
    (a + b).toNat = a.toNat + b.toNat := by
  rw [UInt32.toNat_add]
  exact Nat.mod_eq_of_lt h

theorem Write.inside_of_le {size off : UInt32} {len : ℕ} (h : off.toNat + len ≤ size.toNat) :
    Write.Inside size ⟨off, len⟩ := by
  intro i hi
  dsimp only at hi ⊢
  omega

theorem secondPass_final (entries : List Dirent) (off : UInt32)
    (hnames : ∀ e ∈ entries, e.name.length ≤ nervfsMaxNameLen) :
    (secondPass off entries).2.toNat =
      (off.toNat + (entries.flatMap encodeDirent).length) % 2 ^ 32 := by
  induction entries generalizing off with
  | nil =>
    have hlt := off.toNat_lt
    change off.toNat = _
    rw [List.flatMap_nil, List.length_nil]
    omega
  | cons e es ih =>
    have hlen := encodeDirent_length e
    have hname := nameLen_toNat (hnames e List.mem_cons_self)
    unfold secondPass
    dsimp only
    rw [ih _ fun e' he' => hnames e' (List.mem_cons_of_mem _ he'), List.flatMap_cons,
      List.length_append]
    simp only [UInt32.toNat_add, UInt16.toNat_toUInt32, hname, UInt32.reduceToNat]
    omega

theorem secondPass_inside {size : UInt32} (entries : List Dirent) (off : UInt32)
    (hnames : ∀ e ∈ entries, e.name.length ≤ nervfsMaxNameLen)
    (hsize : off.toNat + (entries.flatMap encodeDirent).length ≤ size.toNat) :
    ∀ w ∈ (secondPass off entries).1, w.Inside size := by
  induction entries generalizing off with
  | nil =>
    intro w hw
    cases hw
  | cons e es ih =>
    have hlt := size.toNat_lt
    have hlen := encodeDirent_length e
    have hname := nameLen_toNat (hnames e List.mem_cons_self)
    rw [List.flatMap_cons, List.length_append] at hsize
    unfold secondPass
    dsimp only
    have h2 : (2 : UInt32).toNat = 2 := rfl
    have h8 : (8 : UInt32).toNat = 8 := rfl
    have h4 : (4 : UInt32).toNat = 4 := rfl
    have hnlen := UInt16.toNat_toUInt32 (UInt16.ofNat e.name.length)
    have hnameOff := add_toNat off 2 (by omega)
    have hsizeOff := add_toNat (off + 2) (UInt16.ofNat e.name.length).toUInt32 (by omega)
    have hmodeOff := add_toNat (off + 2 + (UInt16.ofNat e.name.length).toUInt32) 8 (by omega)
    have hend := add_toNat (off + 2 + (UInt16.ofNat e.name.length).toUInt32 + 8) 4 (by omega)
    have hrest := ih _ (fun e' he' => hnames e' (List.mem_cons_of_mem _ he'))
      (show (off + 2 + (UInt16.ofNat e.name.length).toUInt32 + 8 + 4).toNat + _ ≤ _ by omega)
    intro w hw
    simp only [List.mem_cons] at hw
    rcases hw with rfl | rfl | rfl | rfl | hw
    · exact Write.inside_of_le (by omega)
    · exact Write.inside_of_le (by omega)
    · exact Write.inside_of_le (by omega)
    · exact Write.inside_of_le (by omega)
    · exact hrest w hw

/-- A store is defined when its bytes are inside, and the program goes on behind them. -/
theorem store_returns {size off len : UInt32} {out data : Bytes} {k : Bytes → Prog Bytes}
    {rest : Prop} {n : ℕ} (hoff : off.toNat = out.length) (hle : out.length ≤ size.toNat)
    (hdata : data.length = n) (hlen : len.toNat = n)
    (hk : (off + len).toNat = (out ++ data).length → (out ++ data).length ≤ size.toNat →
      (k (out ++ data) ≠ .stuck ↔ rest)) :
    (store size out data >>= k) ≠ .stuck ↔ Write.Inside size ⟨off, n⟩ ∧ rest := by
  have hlt := size.toNat_lt
  by_cases hfits : out.length + data.length ≤ size.toNat
  · rw [store_of_le hfits, Program.ret_bind, hk, and_iff_right]
    · exact Write.inside_of_le (by omega)
    · rw [add_toNat _ _ (by omega), List.length_append, hoff, hlen, hdata]
    · rw [List.length_append]
      exact hfits
  · rw [store_of_lt (by omega), Program.stuck_bind]
    apply iff_of_false (not_not.mpr rfl)
    intro h
    have hlast := h.1 (n - 1) (by dsimp only; omega)
    dsimp only at hlast
    omega

/-- The second pass of the program is defined when every one of its writes is inside. -/
theorem encodeEntries_returns {size : UInt32} (entries : List Dirent) (off : UInt32) (out : Bytes)
    (hnames : ∀ e ∈ entries, e.name.length ≤ nervfsMaxNameLen) (hoff : off.toNat = out.length)
    (hle : out.length ≤ size.toNat) :
    encodeEntries size entries out ≠ .stuck ↔
      ∀ w ∈ (secondPass off entries).1, w.Inside size := by
  induction entries generalizing off out with
  | nil =>
    apply iff_of_true
    · intro h
      cases h
    · intro w hw
      cases hw
  | cons e es ih =>
    have hname := nameLen_toNat (hnames e List.mem_cons_self)
    have h2 : (writeU16 (UInt16.ofNat e.name.length)).length = 2 := BigEndian.toBytes_length ..
    have h8 : (writeU64 e.size).length = 8 := BigEndian.toBytes_length ..
    have h4 : (writeU32 e.mode).length = 4 := BigEndian.toBytes_length ..
    unfold encodeEntries secondPass
    dsimp only
    rw [hname, List.take_length]
    simp only [List.forall_mem_cons]
    apply store_returns hoff hle h2 (show (2 : UInt32).toNat = 2 from rfl)
    intro hoff hle
    apply store_returns hoff hle rfl ((UInt16.toNat_toUInt32 _).trans hname)
    intro hoff hle
    apply store_returns hoff hle h8 (show (8 : UInt32).toNat = 8 from rfl)
    intro hoff hle
    apply store_returns hoff hle h4 (show (4 : UInt32).toNat = 4 from rfl)
    intro hoff hle
    exact ih _ _ (fun e' he' => hnames e' (List.mem_cons_of_mem _ he')) hoff hle

/-- Nothing is written past the buffer when the sum does not wrap around, and only then. -/
theorem listWrites_inside_iff (entries : List Dirent)
    (hnames : ∀ e ∈ entries, e.name.length ≤ nervfsMaxNameLen) :
    (∀ w ∈ listWrites entries, w.Inside (listPayloadLen entries)) ↔
      encodedLength entries < 2 ^ 32 := by
  have hpayload := listPayloadLen_toNat entries
  have hbody := listBody_length entries
  have hlength := encodedLength_eq entries
  have h0 : (0 : UInt32).toNat = 0 := rfl
  have h4 : (4 : UInt32).toNat = 4 := rfl
  constructor
  · intro h
    by_contra hlong
    have hfirst := h ⟨0, 4⟩ List.mem_cons_self 3 (by decide)
    dsimp only at hfirst
    have hcount : (writeU32 (UInt32.ofNat entries.length)).length = 4 := BigEndian.toBytes_length ..
    have hreturns := (encodeEntries_returns entries 4 (writeU32 (UInt32.ofNat entries.length))
      hnames (h4.trans hcount.symm) (by omega)).mpr fun w hw => h w (List.mem_cons_of_mem _ hw)
    apply hreturns
    apply encodeEntries_stuck entries _ hnames
    · omega
    · have hlt := (listPayloadLen entries).toNat_lt
      omega
  · intro h w hw
    have hsum : (listPayloadLen entries).toNat = encodedLength entries := by
      rw [hpayload, ← hlength]
      exact Nat.mod_eq_of_lt h
    rcases List.mem_cons.mp hw with rfl | hw
    · exact Write.inside_of_le (by omega)
    · exact secondPass_inside entries 4 hnames (by omega) w hw

/-- The two passes agree when the sum does not wrap around, and only then. -/
theorem passes_agree_iff (entries : List Dirent)
    (hnames : ∀ e ∈ entries, 1 ≤ e.name.length ∧ e.name.length ≤ nervfsMaxNameLen) :
    PassesAgree entries ↔ encodedLength entries < 2 ^ 32 := by
  have hshort : ∀ e ∈ entries, e.name.length ≤ nervfsMaxNameLen := fun e he => (hnames e he).2
  have hinside := listWrites_inside_iff entries hshort
  constructor
  · intro h
    exact hinside.mp h.inside
  · intro h
    refine ⟨?_, hinside.mpr h, ?_⟩
    · rw [listPayloadLen_toNat, ← encodedLength_eq]
      exact Nat.mod_eq_of_lt h
    · apply UInt32.toNat_inj.mp
      unfold finalOffset
      rw [secondPass_final entries 4 hshort, listPayloadLen_toNat, listBody_length]
      rfl

theorem passes_agree_short :
    PassesAgree [⟨[0x61], 5, 0o644⟩] ↔ encodedLength [⟨[0x61], 5, 0o644⟩] < 2 ^ 32 :=
  passes_agree_iff [⟨[0x61], 5, 0o644⟩] (by decide)

/-- A directory that is too large: names of full length, told apart by the bits of a number. -/
def crowdName (i : ℕ) : Bytes := (List.range 255).map fun k => if i.testBit k then 0x62 else 0x61

def crowd (n : ℕ) : List Dirent := (List.range n).map fun i => ⟨crowdName i, 0, 0o644⟩

theorem crowdName_length (i : ℕ) : (crowdName i).length = 255 := by
  unfold crowdName
  rw [List.length_map, List.length_range]

theorem of_mem_crowdName {i : ℕ} {b : UInt8} (h : b ∈ crowdName i) : b = 0x62 ∨ b = 0x61 := by
  obtain ⟨k, -, rfl⟩ := List.mem_map.mp h
  split
  · exact Or.inl rfl
  · exact Or.inr rfl

theorem crowdName_inj {i j : ℕ} (hi : i < 2 ^ 255) (hj : j < 2 ^ 255)
    (h : crowdName i = crowdName j) : i = j := by
  apply Nat.eq_of_testBit_eq
  intro k
  by_cases hk : k < 255
  · have hbit := List.map_inj_left.mp h k (List.mem_range.mpr hk)
    cases hik : i.testBit k <;> cases hjk : j.testBit k <;> simp [hik, hjk] at hbit ⊢
  · have hpow : 2 ^ 255 ≤ 2 ^ k := Nat.pow_le_pow_right (by omega) (by omega)
    rw [Nat.testBit_lt_two_pow (by omega), Nat.testBit_lt_two_pow (by omega)]

theorem crowd_nodup {n : ℕ} (hn : n ≤ 2 ^ 255) : ((crowd n).map Dirent.name).Nodup := by
  unfold crowd
  rw [List.map_map]
  apply List.Nodup.map_on
  · intro i hi j hj h
    rw [List.mem_range] at hi hj
    exact crowdName_inj (by omega) (by omega) h
  · exact List.nodup_range

theorem crowd_names {n : ℕ} :
    ∀ e ∈ crowd n, 1 ≤ e.name.length ∧ e.name.length ≤ nervfsMaxNameLen := by
  intro e he
  obtain ⟨i, -, rfl⟩ := List.mem_map.mp he
  dsimp only
  rw [crowdName_length]
  decide

theorem encodedLength_crowd (n : ℕ) : encodedLength (crowd n) = 4 + 269 * n := by
  have hconst : ((crowd n).map fun e => 2 + e.name.length + 12) = List.replicate n 269 := by
    unfold crowd
    rw [List.map_map]
    apply List.eq_replicate_of_mem ?_ |>.trans
    · rw [List.length_map, List.length_range]
    · intro m hm
      obtain ⟨i, -, rfl⟩ := List.mem_map.mp hm
      simp only [Function.comp, crowdName_length]
  unfold encodedLength
  rw [hconst, List.sum_replicate_nat]
  omega

/-- The fewest names of full length that are too many. -/
def crowdSize : ℕ := 15966422

theorem crowd_too_long : 2 ^ 32 ≤ encodedLength (crowd crowdSize) := by
  rw [encodedLength_crowd]
  unfold crowdSize
  omega

/-- With that many files the passes disagree. -/
theorem crowd_passes_disagree :
    (∀ e ∈ crowd crowdSize, 1 ≤ e.name.length ∧ e.name.length ≤ nervfsMaxNameLen) ∧
      ((crowd crowdSize).map Dirent.name).Nodup ∧ ¬ PassesAgree (crowd crowdSize) := by
  refine ⟨crowd_names, crowd_nodup ?_, ?_⟩
  · unfold crowdSize
    omega
  · intro h
    have hlt := (listPayloadLen (crowd crowdSize)).toNat_lt
    have hlong := crowd_too_long
    rw [← h.sum] at hlong
    omega

end NervFS.ListPasses
