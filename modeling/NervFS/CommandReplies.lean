import NervFS.CommandLine
import NervFS.ListDecoding
import NervFS.Transfers

/-!
The responses of the server as the command line client takes them apart. The bytes of the
connection arrive in pieces of any size; each command reads what belongs to its response
and leaves the rest of the stream alone.
-/
namespace NervFS.CommandReplies

open Programs BigEndian Calls Protocol FileOps Handlers Requests Operations Responses
open Listings ListDecoding PrefixCodes CommandLine Transfers

/-- The other end of a connection: the bytes still to be read, and how many more than one
of them each read delivers at most. -/
structure Peer where
  stream : Bytes
  cuts : List ℕ := []

/-- The number of bytes that the next read is given. -/
def Peer.piece (p : Peer) (len : ℕ) : ℕ :=
  match p.cuts with
  | [] => len
  | cut :: _ => min len (cut + 1)

theorem piece_le (p : Peer) (len : ℕ) : p.piece len ≤ len := by
  unfold Peer.piece
  split
  · exact le_refl _
  · exact Nat.min_le_left ..

theorem piece_pos (p : Peer) {len : ℕ} (h : 0 < len) : 0 < p.piece len := by
  unfold Peer.piece
  split
  · exact h
  · omega

/-- A read delivers part of the stream; the allocations of the client succeed. -/
def peer : (e : Call) → Peer → Option (Reply e × Peer)
  | .malloc _, p => some (true, p)
  | .sockRead _ len, p =>
    some (some ⟨p.stream.take (p.piece len), (List.length_take_le ..).trans (piece_le p len)⟩,
      ⟨p.stream.drop (p.piece len), p.cuts.tail⟩)
  | _, _ => none

/-- However the stream is cut, the program returns `a` and has read all of it but `rest`. -/
def Reads {α : Type} (p : Prog α) (stream : Bytes) (a : α) (rest : Bytes) : Prop :=
  ∀ cuts, p.wp peer (fun r s => r = a ∧ s.stream = rest) ⟨stream, cuts⟩

section Reads
variable {α β : Type} {p : Prog α} {f : α → Prog β} {stream rest final : Bytes} {a : α} {b : β}

theorem reads_ret (a : α) (stream : Bytes) : Reads (.ret a) stream a stream :=
  fun _ => (Program.wp_ret ..).mpr ⟨rfl, rfl⟩

theorem Reads.bind (hp : Reads p stream a rest) (hf : Reads (f a) rest b final) :
    Reads (p >>= f) stream b final := by
  intro cuts
  refine Program.wp_bind (Program.wp_mono (hp cuts) ?_)
  rintro r ⟨left, cuts'⟩ ⟨rfl, rfl⟩
  exact hf cuts'

theorem reads_malloc {size : ℕ} {f : Bool → Prog β} (h : Reads (f true) stream b rest) :
    Reads (malloc size >>= f) stream b rest := fun cuts => Program.wp_call rfl (h cuts)

theorem wp_sockRead {fd len : ℕ} {cuts : List ℕ} {Q : β → Peer → Prop}
    {f : Option { bytes : Bytes // bytes.length ≤ len } → Prog β} (hpos : 0 < len)
    (h : ∀ n cuts' (hn : (stream.take n).length ≤ len), 0 < n → n ≤ len →
      (f (some ⟨stream.take n, hn⟩)).wp peer Q ⟨stream.drop n, cuts'⟩) :
    (sockRead fd len >>= f).wp peer Q ⟨stream, cuts⟩ :=
  Program.wp_call rfl (h _ _ _ (piece_pos _ hpos) (piece_le _ _))

/-- A receive that takes pieces of any size reads however the stream is cut. -/
theorem reads_of_receives {fd : ℕ} {p : Prog (Option α)}
    (h : Receives fd p stream a rest) : Reads p stream (some a) rest := by
  induction h with
  | ret a rest => exact reads_ret _ _
  | @read len stream rest a k hlen _ hend _ ih =>
    intro cuts
    apply wp_sockRead hlen
    intro n cuts' hn hpos hle
    by_cases hnil : stream = []
    · subst hnil
      obtain ⟨hret, hrest⟩ := hend rfl
      have hk : k (some ⟨([] : Bytes).take n, hn⟩) = .ret (some a) := by
        simp only [List.take_nil, hret]
      rw [hk, hrest, List.drop_nil]
      exact reads_ret _ _ cuts'
    · have hlen' := List.length_pos_iff.mpr hnil
      by_cases hshort : n ≤ stream.length
      · exact ih n hn hpos hle hshort cuts'
      · have htake : stream.take n = stream.take stream.length := by
          rw [List.take_length, List.take_of_length_le (by omega)]
        have hdrop : stream.drop n = stream.drop stream.length := by
          rw [List.drop_length, List.drop_of_length_le (by omega)]
        simp only [htake] at hn ⊢
        rw [hdrop]
        exact ih stream.length hn hlen' (by omega) (le_refl _) cuts'

theorem reads_recvFull (fd len : ℕ) (stream : Bytes) :
    Reads (recvFull fd len) stream (some (stream.take len)) (stream.drop len) :=
  reads_of_receives (receives_recvFull fd len stream)

theorem reads_recvExactly (fd : ℕ) (bytes rest : Bytes) :
    Reads (recvExactly fd bytes.length) (bytes ++ rest) (some bytes) rest := by
  have h := reads_recvFull fd bytes.length (bytes ++ rest)
  rw [List.take_left' rfl, List.drop_left' rfl] at h
  refine h.bind ?_
  dsimp only
  rw [if_pos rfl]
  exact reads_ret _ _

theorem load_append (before bytes after : Bytes) :
    load (before ++ (bytes ++ after)) before.length bytes.length = .ret bytes := by
  rw [load_of_le (by simp only [List.length_append]; omega), List.drop_left' rfl,
    List.take_left' rfl]

theorem readU16_append {off : UInt32} (before after : Bytes) (v : UInt16)
    (h : off.toNat = before.length) :
    readU16 (before ++ (writeU16 v ++ after)) off = .ret v := by
  have hload := load_append before (writeU16 v) after
  have hlen : (writeU16 v).length = 2 := toBytes_length ..
  have hval : ofBytes (writeU16 v) = v.toNat := ofBytes_toBytes_of_lt v.toNat_lt
  rw [hlen] at hload
  unfold readU16
  rw [h, hload, Program.ret_bind, hval, UInt16.ofNat_toNat]
  rfl

theorem readU32_append {off : UInt32} (before after : Bytes) (v : UInt32)
    (h : off.toNat = before.length) :
    readU32 (before ++ (writeU32 v ++ after)) off = .ret v := by
  have hload := load_append before (writeU32 v) after
  have hlen : (writeU32 v).length = 4 := toBytes_length ..
  have hval : ofBytes (writeU32 v) = v.toNat := ofBytes_toBytes_of_lt v.toNat_lt
  rw [hlen] at hload
  unfold readU32
  rw [h, hload, Program.ret_bind, hval, UInt32.ofNat_toNat]
  rfl

theorem readU64_append {off : UInt32} (before after : Bytes) (v : UInt64)
    (h : off.toNat = before.length) :
    readU64 (before ++ (writeU64 v ++ after)) off = .ret v := by
  have hload := load_append before (writeU64 v) after
  have hlen : (writeU64 v).length = 8 := toBytes_length ..
  have hval : ofBytes (writeU64 v) = v.toNat := ofBytes_toBytes_of_lt v.toNat_lt
  rw [hlen] at hload
  unfold readU64
  rw [h, hload, Program.ret_bind, hval, UInt64.ofNat_toNat]
  rfl

end Reads

section Loads
variable {buf : Bytes} {off : UInt32}

theorem load_of_lt {off len : ℕ} (h : buf.length < off + len) : load buf off len = .stuck :=
  if_neg (by omega)

theorem readU16_of_lt (h : buf.length < off.toNat + 2) : readU16 buf off = .stuck := by
  unfold readU16
  rw [load_of_lt h]
  rfl

theorem readU32_of_lt (h : buf.length < off.toNat + 4) : readU32 buf off = .stuck := by
  unfold readU32
  rw [load_of_lt h]
  rfl

theorem readU64_of_lt (h : buf.length < off.toNat + 8) : readU64 buf off = .stuck := by
  unfold readU64
  rw [load_of_lt h]
  rfl

theorem offset_add {a b : UInt32} (h : a.toNat + b.toNat < 2 ^ 32) :
    (a + b).toNat = a.toNat + b.toNat := by
  rw [UInt32.toNat_add]
  exact Nat.mod_eq_of_lt h

end Loads

section Responses
variable {fd : ℕ} (rest : Bytes)

theorem reads_header {h : Header} (hmagic : h.magic = nervfsMagic)
    (hversion : h.version = nervfsVersion) :
    Reads (readResponseHeader fd) (serializeHeader h ++ rest) (.ok h) rest := by
  have hsize := serializeHeader_length h
  have hparse := parseHeader_serializeHeader h [] hmagic hversion
  have hread := reads_recvFull fd nervfsHeaderSize (serializeHeader h ++ rest)
  rw [List.take_left' hsize, List.drop_left' hsize] at hread
  rw [List.append_nil] at hparse
  refine hread.bind ?_
  dsimp only
  rw [if_neg (not_not.mpr hsize), hparse]
  exact reads_ret _ _

/-- Another response than the expected one is read as a simple result. -/
theorem reads_other {h : Header} {stream : Bytes} {r : Result} (hmagic : h.magic = nervfsMagic)
    (hversion : h.version = nervfsVersion) (hp : Reads (printSimpleResult fd h) stream r rest) :
    (h.opcode ≠ opRespListData → Reads (readListing fd) (serializeHeader h ++ stream) r rest) ∧
    (h.opcode ≠ opRespFileData →
      ∀ out, Reads (readDownload fd out) (serializeHeader h ++ stream) r rest) := by
  constructor
  · intro hop
    refine (reads_header stream hmagic hversion).bind ?_
    dsimp only
    rw [if_pos hop]
    exact hp
  · intro hop out
    refine (reads_header stream hmagic hversion).bind ?_
    dsimp only
    rw [if_pos hop]
    exact hp

theorem reads_ok (elapsedUs : UInt64) :
    Reads (printSimpleResult fd (responseHeader opRespOk 0 elapsedUs)) rest
      ⟨0, [.ok elapsedUs], none⟩ rest := reads_ret _ _

theorem reads_metrics (elapsedUs networkUs writeUs syncUs : UInt64) :
    Reads (printSimpleResult fd (responseHeader opRespOk 24 elapsedUs))
      (metricsBody networkUs writeUs syncUs ++ rest)
      ⟨0, [.okMetrics elapsedUs networkUs writeUs syncUs], none⟩ rest := by
  have hrecv := reads_recvExactly fd (metricsBody networkUs writeUs syncUs) rest
  rw [metricsBody_length] at hrecv
  have h0 : readU64 (metricsBody networkUs writeUs syncUs) 0 = .ret networkUs :=
    readU64_append [] _ networkUs rfl
  have h8 : readU64 (metricsBody networkUs writeUs syncUs) 8 = .ret writeUs :=
    readU64_append (writeU64 networkUs) (writeU64 syncUs) writeUs (toBytes_length ..).symm
  have h16 : readU64 (metricsBody networkUs writeUs syncUs) 16 = .ret syncUs := by
    have hr : readU64 (writeU64 networkUs ++ writeU64 writeUs ++ (writeU64 syncUs ++ [])) 16 =
        .ret syncUs := readU64_append _ [] syncUs (by simp [writeU64])
    rwa [List.append_nil, List.append_assoc] at hr
  refine hrecv.bind ?_
  dsimp only
  rw [h0, Program.ret_bind, h8, Program.ret_bind, h16, Program.ret_bind]
  exact reads_ret _ _

/-- The message of an error response is printed whole when it holds no null byte. -/
theorem reads_error {header : Header} (errCode : UInt16) {msg : Bytes}
    (hop : header.opcode = opRespErr) (hlen : header.payloadLen.toNat = 4 + msg.length)
    (hmsg : msg.length < 65536) (hnul : 0 ∉ msg) :
    Reads (printSimpleResult fd header)
      (writeU16 errCode ++ (writeU16 (UInt16.ofNat msg.length) ++ msg) ++ rest)
      ⟨1, [.error errCode msg], none⟩ rest := by
  have hnat : (UInt16.ofNat msg.length).toNat = msg.length := UInt16.toNat_ofNat_of_lt' hmsg
  generalize hbody : writeU16 errCode ++ (writeU16 (UInt16.ofNat msg.length) ++ msg) = body
  have hbodyLen : body.length = header.payloadLen.toNat := by
    rw [← hbody, hlen]
    simp only [List.length_append, writeU16, toBytes_length]
    omega
  have hrecv := reads_recvExactly fd body rest
  rw [hbodyLen] at hrecv
  have h0 : readU16 body 0 = .ret errCode := by
    rw [← hbody]
    exact readU16_append [] _ errCode rfl
  have h2 : readU16 body 2 = .ret (UInt16.ofNat msg.length) := by
    rw [← hbody]
    exact readU16_append (writeU16 errCode) msg _ (toBytes_length ..).symm
  have hdrop : body.drop 4 = msg := by
    rw [← hbody, ← List.append_assoc, List.drop_left' (by simp [writeU16])]
  have htext : printText msg msg.length = .ret msg := by
    unfold printText
    rw [if_pos (Or.inl (le_refl _)), List.take_length, cString_of_no_nul hnul]
    rfl
  unfold printSimpleResult
  rw [hop, if_neg (by decide), if_pos rfl]
  refine reads_malloc ?_
  refine hrecv.bind ?_
  dsimp only
  rw [h0, Program.ret_bind, h2, Program.ret_bind, hdrop, hnat, htext, Program.ret_bind]
  exact reads_ret _ _

def entryLine (e : Dirent) : Line := .entry e.name e.size e.mode

theorem maxNameLen_lt : nervfsMaxNameLen < 65536 := by decide

/-- The line of an entry; the name is printed up to its first null byte. -/
def shownLine (e : Dirent) : Line := .entry (cString (e.name ++ [0])) e.size e.mode

/-- One round of the loop takes the entry at the offset, or leaves a buffer. -/
theorem listLines_round {body : Bytes} {off : UInt32} (count : ℕ) (hsize : body.length < 2 ^ 32)
    (hoff : off.toNat ≤ body.length) :
    (takeDirent nervfsMaxNameLen (body.drop off.toNat) = none ∧
      listLines body (count + 1) off = .stuck) ∨
    ∃ e rest off', takeDirent nervfsMaxNameLen (body.drop off.toNat) = some (e, rest) ∧
      off'.toNat ≤ body.length ∧ body.drop off'.toNat = rest ∧
      listLines body (count + 1) off =
        listLines body count off' >>= fun lines => .ret (shownLine e :: lines) := by
  generalize hbytes : body.drop off.toNat = bytes
  have hlen : bytes.length = body.length - off.toNat := by
    rw [← hbytes, List.length_drop]
  have hlt := nameLenOf_lt bytes
  have hnat : (UInt16.ofNat (nameLenOf bytes)).toNat = nameLenOf bytes := nameLen_toNat bytes
  have h2n : (2 : UInt32).toNat = 2 := rfl
  have h4n : (4 : UInt32).toNat = 4 := rfl
  have h8n : (8 : UInt32).toNat = 8 := rfl
  have hdrop (k : ℕ) : body.drop (off.toNat + k) = bytes.drop k := by
    rw [← hbytes, List.drop_drop]
  rw [listLines]
  dsimp only
  -- each access is the first one to leave its buffer, or the loop goes on
  by_cases h2 : 2 ≤ bytes.length
  · have hoff2 : (off + 2).toNat = off.toNat + 2 := offset_add (by omega)
    have hread2 : readU16 body off = .ret (UInt16.ofNat (nameLenOf bytes)) := by
      rw [readU16_of_le (by omega), hbytes]
      rfl
    rw [hread2, Program.ret_bind, hnat]
    by_cases hn : 2 + nameLenOf bytes ≤ bytes.length
    · have hload : load body (off + 2).toNat (nameLenOf bytes) = .ret (frontDirent bytes).name := by
        rw [load_of_le (by omega), hoff2, hdrop]
        rfl
      obtain ⟨hnamelen, -⟩ := name_prefix bytes hn
      change (frontDirent bytes).name.length = nameLenOf bytes at hnamelen
      rw [hload, Program.ret_bind]
      by_cases hname : nameLenOf bytes ≤ nervfsMaxNameLen
      · have hextract : extractName (frontDirent bytes).name =
            .ret (cString ((frontDirent bytes).name ++ [0])) := if_pos (by omega)
        have hadd : (off + 2).toNat + (UInt16.ofNat (nameLenOf bytes)).toUInt32.toNat =
            off.toNat + (2 + nameLenOf bytes) := by
          rw [hoff2, UInt16.toNat_toUInt32, hnat, Nat.add_assoc]
        have hoffn : (off + 2 + (UInt16.ofNat (nameLenOf bytes)).toUInt32).toNat =
            off.toNat + (2 + nameLenOf bytes) := by
          rw [offset_add (by omega), hadd]
        rw [hextract, Program.ret_bind]
        by_cases h10 : 2 + nameLenOf bytes + 8 ≤ bytes.length
        · have hread8 : readU64 body (off + 2 + (UInt16.ofNat (nameLenOf bytes)).toUInt32) =
              .ret (frontDirent bytes).size := by
            rw [readU64_of_le (by omega), hoffn, hdrop]
            rfl
          have hoff8 : (off + 2 + (UInt16.ofNat (nameLenOf bytes)).toUInt32 + 8).toNat =
              off.toNat + (2 + nameLenOf bytes + 8) := by
            rw [offset_add (by omega), hoffn, h8n, Nat.add_assoc]
          rw [hread8, Program.ret_bind]
          by_cases h14 : 14 + nameLenOf bytes ≤ bytes.length
          · have hread4 : readU32 body
                (off + 2 + (UInt16.ofNat (nameLenOf bytes)).toUInt32 + 8) =
                  .ret (frontDirent bytes).mode := by
              rw [readU32_of_le (by omega), hoff8, hdrop]
              rfl
            have hoff4 : (off + 2 + (UInt16.ofNat (nameLenOf bytes)).toUInt32 + 8 + 4).toNat =
                off.toNat + (14 + nameLenOf bytes) := by
              rw [offset_add (by omega), hoff8, h4n]
              omega
            rw [hread4, Program.ret_bind]
            right
            refine ⟨frontDirent bytes, bytes.drop (14 + nameLenOf bytes),
              off + 2 + (UInt16.ofNat (nameLenOf bytes)).toUInt32 + 8 + 4,
              if_pos ⟨h14, hname⟩, by omega, ?_, rfl⟩
            rw [hoff4, hdrop]
          · left
            rw [readU32_of_lt (by omega)]
            exact ⟨if_neg (by omega), rfl⟩
        · left
          rw [readU64_of_lt (by omega)]
          exact ⟨if_neg (by omega), rfl⟩
      · left
        have hextract : extractName (frontDirent bytes).name = .stuck := if_neg (by omega)
        rw [hextract]
        exact ⟨if_neg (by omega), rfl⟩
    · left
      rw [load_of_lt (by omega)]
      exact ⟨if_neg (by omega), rfl⟩
  · left
    rw [readU16_of_lt (by omega)]
    exact ⟨if_neg (by omega), rfl⟩

/-- The loop follows the code of the entries, and leaves a buffer where they end too early
or have a name that is too long. -/
theorem listLines_takeMany {body : Bytes} {off : UInt32} (count : ℕ)
    (hsize : body.length < 2 ^ 32) (hoff : off.toNat ≤ body.length) :
    listLines body count off =
      match (direntCode nervfsMaxNameLen maxNameLen_lt).takeMany count (body.drop off.toNat) with
      | none => .stuck
      | some p => .ret (p.1.map shownLine) := by
  induction count generalizing off with
  | zero => rfl
  | succ count ih =>
    have hcode : (direntCode nervfsMaxNameLen maxNameLen_lt).take =
        takeDirent nervfsMaxNameLen := rfl
    rw [PrefixCode.takeMany, hcode]
    rcases listLines_round count hsize hoff with hround | hround
    · rw [hround.1, hround.2]
    · obtain ⟨e, rest, off', htake, hoff', hrest, hlines⟩ := hround
      rw [htake, hlines, ih hoff', hrest]
      dsimp only
      cases (direntCode nervfsMaxNameLen maxNameLen_lt).takeMany count rest with
      | none => rfl
      | some p => rfl

theorem listLines_eq {entries : List Dirent} (henc : Encodable entries)
    (hnul : ∀ e ∈ entries, 0 ∉ e.name) :
    listLines (listBody entries) entries.length 4 = .ret (entries.map entryLine) := by
  have hlists := lists_listBody henc
  have h4n : (4 : UInt32).toNat = 4 := rfl
  have hoff : (4 : UInt32).toNat ≤ (listBody entries).length := hlists.four_le
  obtain ⟨rest, htake⟩ := (takeMany_some_iff maxNameLen_lt hlists.four_le entries).mpr hlists
  have hcount : countOf (listBody entries) = entries.length := by
    rw [((PrefixCode.takeMany_iff ..).mp htake).1]
  have hshown : entries.map shownLine = entries.map entryLine := by
    apply List.map_congr_left
    intro e he
    unfold shownLine entryLine
    rw [cString_append_nul (hnul e he)]
  rw [hcount] at htake
  rw [listLines_takeMany _ henc.total hoff, h4n, htake, ← hshown]

theorem reads_listing (elapsedUs : UInt64) {entries : List Dirent} (henc : Encodable entries)
    (hnul : ∀ e ∈ entries, 0 ∉ e.name) :
    Reads (readListing fd) (frame opRespListData elapsedUs (listBody entries) ++ rest)
      ⟨0, .count (UInt32.ofNat entries.length) elapsedUs :: entries.map entryLine, none⟩ rest := by
  have hannounced : (UInt32.ofNat (listBody entries).length).toNat =
      (listBody entries).length :=
    UInt32.toNat_ofNat_of_lt' henc.total
  have hcount : (UInt32.ofNat entries.length).toNat = entries.length :=
    UInt32.toNat_ofNat_of_lt' henc.count_lt
  have hrecv := reads_recvExactly fd (listBody entries) rest
  have hread : readU32 (listBody entries) 0 = .ret (UInt32.ofNat entries.length) :=
    readU32_append [] _ _ rfl
  have hlines := listLines_eq henc hnul
  rw [frame, List.append_assoc]
  unfold readListing
  have hopcode : (responseHeader opRespListData (UInt32.ofNat (listBody entries).length)
      elapsedUs).opcode = opRespListData := rfl
  refine (reads_header _ rfl rfl).bind ?_
  dsimp only
  rw [if_neg (not_not.mpr hopcode)]
  refine reads_malloc ?_
  change Reads (recvExactly fd (UInt32.ofNat (listBody entries).length).toNat >>= _) _ _ _
  rw [hannounced]
  refine hrecv.bind ?_
  dsimp only
  rw [hread, Program.ret_bind, hcount, hlines, Program.ret_bind]
  exact reads_ret _ _

theorem reads_file (fd : ℕ) (rest : Bytes) (out : Output) (elapsedUs : UInt64) {content : Bytes}
    (h : content.length < 2 ^ 63) (hopens : out.opens = true)
    (hwritten : content.length ≤ out.written) (payloadLen : UInt32) :
    Reads (readDownload fd out)
      (serializeHeader (responseHeader opRespFileData payloadLen elapsedUs) ++
        (writeU64 (UInt64.ofNat content.length) ++ (content ++ rest)))
      ⟨0, [.downloaded (UInt64.ofNat content.length) elapsedUs], some content⟩ rest := by
  have hnat : (UInt64.ofNat content.length).toNat = content.length :=
    UInt64.toNat_ofNat_of_lt' (show content.length < 2 ^ 64 by omega)
  have hsigned : (UInt64.ofNat content.length).toInt64.toInt = (content.length : ℤ) := by
    have h64 : Int64.size = 2 ^ 64 := rfl
    rw [UInt64.toInt64_ofNat', Int64.toInt_ofNat', h64, Int.bmod_def]
    omega
  have hsize := reads_recvExactly fd (writeU64 (UInt64.ofNat content.length)) (content ++ rest)
  have h8 : (writeU64 (UInt64.ofNat content.length)).length = 8 := toBytes_length ..
  have hread : readU64 (writeU64 (UInt64.ofNat content.length)) 0 =
      .ret (UInt64.ofNat content.length) := by
    have hr := readU64_append [] [] (UInt64.ofNat content.length)
      (show (0 : UInt32).toNat = 0 from rfl)
    rwa [List.append_nil, List.nil_append] at hr
  have hopcode : (responseHeader opRespFileData payloadLen elapsedUs).opcode = opRespFileData :=
    rfl
  rw [h8] at hsize
  unfold readDownload
  refine (reads_header _ rfl rfl).bind ?_
  dsimp only
  rw [if_neg (not_not.mpr hopcode)]
  unfold saveDownload
  refine hsize.bind ?_
  dsimp only
  rw [hread, Program.ret_bind]
  have hdata : Reads (recvFileBody fd (UInt64.ofNat content.length)) (content ++ rest)
      (some content) rest := by
    unfold recvFileBody
    by_cases hzero : 0 < UInt64.ofNat content.length
    · have hrecv := reads_recvFull fd content.length (content ++ rest)
      rw [List.take_left' rfl, List.drop_left' rfl] at hrecv
      rw [if_pos hzero]
      refine reads_malloc ?_
      rw [hnat]
      refine hrecv.bind ?_
      dsimp only
      rw [if_pos hsigned.symm]
      exact reads_ret _ _
    · have hnil : content = [] := by
        rw [UInt64.lt_iff_toNat_lt, hnat] at hzero
        exact List.eq_nil_of_length_eq_zero (Nat.eq_zero_of_not_pos hzero)
      rw [if_neg hzero, hnil]
      exact reads_ret _ _
  refine hdata.bind ?_
  dsimp only
  rw [hopens, List.take_of_length_le hwritten]
  exact reads_ret _ _

end Responses

end NervFS.CommandReplies
