import NervFS.Responses

/-!
The answer to a listing. The length that is summed before the allocation is the length of
the encoding modulo 2^32, so an encoding below that bound fills its buffer exactly.
-/
namespace NervFS.Listings

open Programs KeyedStore KeyedStore.Semantics BigEndian Calls Protocol FileOps Handlers Kernel
open Requests Responses

def encodeDirent (e : Dirent) : Bytes :=
  writeU16 (UInt16.ofNat e.name.length) ++ (e.name ++ (writeU64 e.size ++ writeU32 e.mode))

def listBody (entries : List Dirent) : Bytes :=
  writeU32 (UInt32.ofNat entries.length) ++ entries.flatMap encodeDirent

/-- The names fit their length fields and the encoding fits the header. -/
structure Encodable (entries : List Dirent) : Prop where
  names : ∀ e ∈ entries, e.name.length ≤ nervfsMaxNameLen
  total : (listBody entries).length < 2 ^ 32

theorem encodeDirent_length (e : Dirent) : (encodeDirent e).length = 14 + e.name.length := by
  simp only [encodeDirent, writeU16, writeU32, writeU64, List.length_append, toBytes_length]
  omega

theorem listBody_length (entries : List Dirent) :
    (listBody entries).length = 4 + (entries.flatMap encodeDirent).length := by
  simp only [listBody, writeU32, List.length_append, toBytes_length]

theorem entries_length_le (entries : List Dirent) :
    entries.length ≤ (entries.flatMap encodeDirent).length := by
  induction entries with
  | nil => exact le_refl _
  | cons e es ih =>
    have hlen := encodeDirent_length e
    rw [List.flatMap_cons, List.length_append, List.length_cons]
    omega

theorem Encodable.count_lt {entries : List Dirent} (h : Encodable entries) :
    entries.length < 2 ^ 32 := by
  have hle := entries_length_le entries
  have htotal := h.total
  rw [listBody_length] at htotal
  omega

theorem foldl_length (entries : List Dirent) (start : UInt32) :
    (entries.foldl (fun len e => len + (2 + UInt32.ofNat e.name.length + 8 + 4)) start).toNat =
      (start.toNat + (entries.flatMap encodeDirent).length) % 2 ^ 32 := by
  induction entries generalizing start with
  | nil =>
    have hlt := start.toNat_lt
    rw [List.foldl_nil, List.flatMap_nil, List.length_nil]
    omega
  | cons e es ih =>
    have hlen := encodeDirent_length e
    rw [List.foldl_cons, ih, List.flatMap_cons, List.length_append]
    simp only [UInt32.toNat_add, UInt32.toNat_ofNat', UInt32.reduceToNat]
    omega

theorem listPayloadLen_toNat (entries : List Dirent) :
    (listPayloadLen entries).toNat = (listBody entries).length % 2 ^ 32 := by
  unfold listPayloadLen
  rw [foldl_length, listBody_length]
  rfl

theorem encodeEntries_eq {size : UInt32} (entries : List Dirent) (out : Bytes)
    (hnames : ∀ e ∈ entries, e.name.length ≤ nervfsMaxNameLen)
    (hsize : out.length + (entries.flatMap encodeDirent).length ≤ size.toNat) :
    encodeEntries size entries out = .ret (out ++ entries.flatMap encodeDirent) := by
  induction entries generalizing out with
  | nil =>
    rw [List.flatMap_nil, List.append_nil]
    rfl
  | cons e es ih =>
    have hname : e.name.length ≤ 255 := hnames e List.mem_cons_self
    have hnat : (UInt16.ofNat e.name.length).toNat = e.name.length :=
      UInt16.toNat_ofNat_of_lt' (show e.name.length < 65536 by omega)
    have hlen := encodeDirent_length e
    rw [List.flatMap_cons, List.length_append] at hsize
    have h2 : (writeU16 (UInt16.ofNat e.name.length)).length = 2 := toBytes_length ..
    have h8 : (writeU64 e.size).length = 8 := toBytes_length ..
    have h4 : (writeU32 e.mode).length = 4 := toBytes_length ..
    unfold encodeEntries
    dsimp only
    rw [hnat, List.take_length, store_of_le (by omega), Program.ret_bind,
      store_of_le (by simp only [List.length_append]; omega), Program.ret_bind,
      store_of_le (by simp only [List.length_append]; omega), Program.ret_bind,
      store_of_le (by simp only [List.length_append]; omega), Program.ret_bind]
    have hout : out ++ writeU16 (UInt16.ofNat e.name.length) ++ e.name ++ writeU64 e.size ++
        writeU32 e.mode = out ++ encodeDirent e := by
      simp only [encodeDirent, List.append_assoc]
    rw [hout, ih _ (fun e' he' => hnames e' (List.mem_cons_of_mem _ he')), List.flatMap_cons,
      List.append_assoc]
    rw [List.length_append]
    omega

theorem store_of_lt {size : UInt32} {out data : Bytes}
    (h : size.toNat < out.length + data.length) : store size out data = .stuck :=
  if_neg (by omega)

/-- The second pass leaves a buffer that is too short for the encodings. -/
theorem encodeEntries_stuck {size : UInt32} (entries : List Dirent) (out : Bytes)
    (hnames : ∀ e ∈ entries, e.name.length ≤ nervfsMaxNameLen) (hout : out.length ≤ size.toNat)
    (hsize : size.toNat < out.length + (entries.flatMap encodeDirent).length) :
    encodeEntries size entries out = .stuck := by
  induction entries generalizing out with
  | nil =>
    rw [List.flatMap_nil, List.length_nil] at hsize
    omega
  | cons e es ih =>
    have hname : e.name.length ≤ 255 := hnames e List.mem_cons_self
    have hnat : (UInt16.ofNat e.name.length).toNat = e.name.length :=
      UInt16.toNat_ofNat_of_lt' (show e.name.length < 65536 by omega)
    have hstore : ∀ (out data : Bytes) (k : Bytes → Prog Bytes),
        (out.length + data.length ≤ size.toNat → k (out ++ data) = .stuck) →
          (store size out data >>= k) = .stuck := by
      intro out data k hk
      by_cases hfits : out.length + data.length ≤ size.toNat
      · rw [store_of_le hfits, Program.ret_bind]
        exact hk hfits
      · rw [store_of_lt (by omega), Program.stuck_bind]
    unfold encodeEntries
    dsimp only
    rw [hnat, List.take_length]
    refine hstore _ _ _ fun _ => hstore _ _ _ fun _ => hstore _ _ _ fun _ => hstore _ _ _ fun h =>
      ?_
    have hsplit : out ++ writeU16 (UInt16.ofNat e.name.length) ++ e.name ++ writeU64 e.size ++
        writeU32 e.mode = out ++ encodeDirent e := by
      simp only [encodeDirent, List.append_assoc]
    rw [← List.length_append, hsplit] at h
    rw [hsplit]
    apply ih _ (fun e' he' => hnames e' (List.mem_cons_of_mem _ he')) h
    rw [List.flatMap_cons, List.length_append] at hsize
    rw [List.length_append]
    omega

/-- The end of `handle_list`, when the directory has been read. -/
def sendList (clientFd : ℕ) (elapsedUs : UInt64) (entries : List Dirent) : Prog Unit := do
  let payloadLen := listPayloadLen entries
  if !(← malloc payloadLen.toNat) then
    sendError clientFd errInternal msgNoMemory
    return
  let out ← store payloadLen [] (writeU32 (UInt32.ofNat entries.length))
  let buf ← encodeEntries payloadLen entries out
  sendMessage clientFd opRespListData (some buf) payloadLen elapsedUs

theorem listPayloadLen_eq (entries : List Dirent) :
    listPayloadLen entries = UInt32.ofNat (listBody entries).length := by
  apply UInt32.toNat_inj.mp
  rw [listPayloadLen_toNat, UInt32.toNat_ofNat']

/-- An encoding that the 32 bit length counts fills its buffer and is sent. -/
theorem sendList_eq (clientFd : ℕ) (elapsedUs : UInt64) {entries : List Dirent}
    (henc : Encodable entries) :
    sendList clientFd elapsedUs entries =
      malloc (listPayloadLen entries).toNat >>= fun rc =>
        if !rc then sendError clientFd errInternal msgNoMemory
        else sendMessage clientFd opRespListData (some (listBody entries))
          (UInt32.ofNat (listBody entries).length) elapsedUs := by
  have htotal := henc.total
  have hsize : (listPayloadLen entries).toNat = (listBody entries).length := by
    rw [listPayloadLen_toNat]
    exact Nat.mod_eq_of_lt htotal
  have hbody := listBody_length entries
  have h4 : (writeU32 (UInt32.ofNat entries.length)).length = 4 := toBytes_length ..
  unfold sendList
  dsimp only
  congr 1
  funext rc
  cases rc with
  | false => exact Program.bind_unit _
  | true =>
    change (store (listPayloadLen entries) [] (writeU32 (UInt32.ofNat entries.length)) >>= _) = _
    rw [store_of_le (by simp only [List.length_nil]; omega), Program.ret_bind, List.nil_append,
      encodeEntries_eq entries _ henc.names (by omega), Program.ret_bind, listPayloadLen_eq]
    rfl

theorem handleList_eq (root : Bytes) (clientFd : ℕ) :
    handleList root clientFd = clockGettime >>= fun start =>
      fileopsListDir root >>= fun listRc =>
        clockGettime >>= fun finish =>
          match listRc with
          | none => sendError clientFd errInternal msgListFailed
          | some entries => sendList clientFd (elapsedMicroseconds start finish) entries := by
  unfold handleList
  congr 1
  funext start
  congr 1
  funext listRc
  congr 1
  funext finish
  cases listRc with
  | none => rfl
  | some entries => rfl

/-- An encoding that the 32 bit length cannot count is written past its buffer. -/
theorem sendList_stuck (clientFd : ℕ) (elapsedUs : UInt64) {entries : List Dirent}
    (hnames : ∀ e ∈ entries, e.name.length ≤ nervfsMaxNameLen)
    (htotal : 2 ^ 32 ≤ (listBody entries).length) :
    sendList clientFd elapsedUs entries =
      malloc (listPayloadLen entries).toNat >>= fun rc =>
        if !rc then sendError clientFd errInternal msgNoMemory else .stuck := by
  have hsize := listPayloadLen_toNat entries
  have hlt := Nat.mod_lt (listBody entries).length (show 0 < 2 ^ 32 by omega)
  have hbody := listBody_length entries
  have h4 : (writeU32 (UInt32.ofNat entries.length)).length = 4 := toBytes_length ..
  unfold sendList
  dsimp only
  congr 1
  funext rc
  cases rc with
  | false => exact Program.bind_unit _
  | true =>
    change (store (listPayloadLen entries) [] (writeU32 (UInt32.ofNat entries.length)) >>= _) =
      Program.stuck
    by_cases hcount : 4 ≤ (listPayloadLen entries).toNat
    · rw [store_of_le (by simp only [List.length_nil]; omega), Program.ret_bind, List.nil_append,
        encodeEntries_stuck entries _ hnames (by omega) (by omega), Program.stuck_bind]
    · rw [store_of_lt (by simp only [List.length_nil]; omega), Program.stuck_bind]

theorem sendList_wp {host : Host} {σ : Bytes → Node} {fd : ℕ}
    {Q : Unit → (Bytes → Node) × Local → Prop} {l : Local} (elapsedUs : UInt64)
    {entries : List Dirent} (hl : Steady l) (henc : Encodable entries)
    (h : ∀ l', l'.sent = l.sent ++ frame opRespListData elapsedUs (listBody entries) →
      Q () (σ, l')) :
    (sendList fd elapsedUs entries).wp (semantics host).handle Q (σ, l) := by
  rw [sendList_eq fd elapsedUs henc]
  refine wp_idle (idle_own rfl) ?_
  change Program.wp _ (if (!l.outcomes.mallocs.headD true) = true then _ else _) Q
    (σ, l.popMalloc)
  rw [head_mallocs hl.mallocs, if_neg (by decide)]
  exact sendMessage_wp opRespListData (listBody entries) elapsedUs henc.total hl.delivers h

end NervFS.Listings
