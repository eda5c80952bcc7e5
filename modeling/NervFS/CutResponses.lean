import NervFS.Alone
import NervFS.Parsers
import NervFS.Lib.PartedMessages

/-!
Responses over a socket that may fail in the middle. A response goes out in two or three
sends whose results nobody looks at. What reaches the client is a prefix of the frame when
no send moves anything after an earlier one broke off, unless those bytes happen to be the
missing ones.
-/
namespace NervFS.CutResponses

open Programs KeyedStore KeyedStore.Semantics Calls Protocol FileOps Handlers Requests Kernel
open Responses Alone Parsers PartedMessages

/-- What one write moves of `size` bytes, if it does not fail. -/
def moved (o : Transfer) (size : ℕ) : Option ℕ :=
  match o with
  | .all => some size
  | .short n => some (min (max 1 n) size)
  | .error => none

/-- How many of `size` bytes one send gets through, and the outcomes left for later sends. -/
def delivered : List Transfer → (size : ℕ) → ℕ × List Transfer
  | [], size => (size, [])
  | o :: os, size =>
    if size = 0 then (0, o :: os)
    else
      match moved o size with
      | none => (0, os)
      | some n => (n + (delivered os (size - n)).1, (delivered os (size - n)).2)

/-- The parts of a response, each with what its send gets through. -/
def sendParts : List Transfer → List Bytes → List (Fragment UInt8)
  | _, [] => []
  | os, part :: parts =>
    (part, (delivered os part.length).1) :: sendParts (delivered os part.length).2 parts

theorem delivered_zero (os : List Transfer) : delivered os 0 = (0, os) := by
  cases os with
  | nil => rfl
  | cons o os => exact if_pos rfl

theorem delivered_none {os : List Transfer} {size : ℕ} (hsize : size ≠ 0)
    (h : moved (os.headD .all) size = none) : delivered os size = (0, os.tail) := by
  cases os with
  | nil => cases h
  | cons o os =>
    rw [List.headD_cons] at h
    unfold delivered
    rw [if_neg hsize, h]
    rfl

theorem delivered_some {os : List Transfer} {size n : ℕ} (hsize : size ≠ 0)
    (h : moved (os.headD .all) size = some n) :
    delivered os size =
      (n + (delivered os.tail (size - n)).1, (delivered os.tail (size - n)).2) := by
  cases os with
  | nil =>
    cases h
    rw [List.tail_nil, Nat.sub_self, delivered_zero]
    rfl
  | cons o os =>
    rw [List.headD_cons] at h
    conv_lhs => unfold delivered
    rw [if_neg hsize, h]
    rfl

theorem moved_bounds {o : Transfer} {size n : ℕ} (hsize : size ≠ 0) (h : moved o size = some n) :
    0 < n ∧ n ≤ size := by
  cases o with
  | all =>
    cases h
    omega
  | short k =>
    cases h
    omega
  | error => cases h

section Sending
variable {host : Host} {σ : Bytes → Node} {fd : ℕ} {buf : Buffer} {bytes : Bytes} {l : Local}
  {α : Type} {Q : α → (Bytes → Node) × Local → Prop}

theorem sendFrom_none (h : moved (l.outcomes.sends.headD .all) bytes.length = none) :
    sendFrom buf bytes l = (none, l.popSend) := by
  unfold sendFrom
  cases ho : l.outcomes.sends.headD .all with
  | all =>
    rw [ho] at h
    cases h
  | short k =>
    rw [ho] at h
    cases h
  | error => exact dif_neg fun hpos => Nat.lt_irrefl 0 hpos.1

theorem sendFrom_some (hlen : buf.length = bytes.length) {n : ℕ} (hne : bytes.length ≠ 0)
    (h : moved (l.outcomes.sends.headD .all) bytes.length = some n) :
    ∃ hn, sendFrom buf bytes l = (some ⟨n, hn⟩, l.popSend.send (bytes.take n)) := by
  obtain ⟨hpos, hle⟩ := moved_bounds hne h
  have hn : 0 < n ∧ n ≤ buf.length := ⟨hpos, by omega⟩
  refine ⟨hn, ?_⟩
  unfold sendFrom
  cases ho : l.outcomes.sends.headD .all with
  | all =>
    rw [ho] at h
    cases h
    exact dif_pos hn
  | short k =>
    rw [ho] at h
    cases h
    exact dif_pos hn
  | error =>
    rw [ho] at h
    cases h

theorem sendLoop_cut_wp {f : Option ℕ → Prog α} (rounds total : ℕ) (hb : Readable σ buf bytes)
    (hrounds : bytes.length ≤ rounds)
    (h : ∀ r l', l'.sent = l.sent ++ bytes.take (delivered l.outcomes.sends bytes.length).1 →
      l'.outcomes.sends = (delivered l.outcomes.sends bytes.length).2 →
        (f r).wp (semantics host).handle Q (σ, l')) :
    (sendLoop fd rounds buf total >>= f).wp (semantics host).handle Q (σ, l) := by
  have hdone : bytes.length = 0 → ∀ r, (f r).wp (semantics host).handle Q (σ, l) := by
    intro hzero r
    rw [hzero, delivered_zero] at h
    apply h r l
    · rw [List.take_zero, List.append_nil]
    · rfl
  induction rounds generalizing buf bytes total l with
  | zero => exact hdone (by omega) _
  | succ rounds ih =>
    unfold sendLoop
    by_cases hzero : buf.length = 0
    · rw [if_pos hzero]
      exact hdone (hb.length ▸ hzero) _
    · rw [if_neg hzero]
      have hne : bytes.length ≠ 0 := hb.length ▸ hzero
      apply sockWrite_reads_wp hb
      cases hmoved : moved (l.outcomes.sends.headD .all) bytes.length with
      | none =>
        rw [delivered_none hne hmoved] at h
        rw [sendFrom_none hmoved]
        apply h none
        · rw [List.take_zero, List.append_nil]
          rfl
        · rfl
      | some n =>
        obtain ⟨hpos, hle⟩ := moved_bounds hne hmoved
        obtain ⟨hn, hsend⟩ := sendFrom_some hb.length hne hmoved
        rw [delivered_some hne hmoved] at h
        rw [hsend]
        have hnext : ∀ r l', l'.sent = l.sent ++ bytes.take n ++
            (bytes.drop n).take (delivered l.outcomes.sends.tail (bytes.length - n)).1 →
              l'.outcomes.sends = (delivered l.outcomes.sends.tail (bytes.length - n)).2 →
                (f r).wp (semantics host).handle Q (σ, l') := by
          intro r l' hsent hsends
          apply h r l' _ hsends
          rw [hsent, List.append_assoc, ← List.take_add]
        rw [← List.length_drop] at hnext
        have hshort : (bytes.drop n).length ≤ rounds := by
          rw [List.length_drop]
          omega
        apply ih (l := l.popSend.send (bytes.take n)) (total + n) (hb.drop hle) hshort hnext
        intro hnil r
        rw [hnil, delivered_zero] at hnext
        apply hnext r
        · rw [List.take_zero, List.append_nil]
          rfl
        · rfl

theorem sendFull_cut_wp {f : Option ℕ → Prog α} (hb : Readable σ buf bytes)
    (h : ∀ r l', l'.sent = l.sent ++ bytes.take (delivered l.outcomes.sends bytes.length).1 →
      l'.outcomes.sends = (delivered l.outcomes.sends bytes.length).2 →
        (f r).wp (semantics host).handle Q (σ, l')) :
    (sendFull fd buf >>= f).wp (semantics host).handle Q (σ, l) :=
  sendLoop_cut_wp _ 0 hb (le_of_eq hb.length.symm) h

end Sending

section Responses
variable {host : Host} {σ : Bytes → Node} {fd : ℕ} {l : Local}
  {Q : Unit → (Bytes → Node) × Local → Prop}

theorem wire_sendParts_cons (os : List Transfer) (part : Bytes) (parts : List Bytes) :
    wire (sendParts os (part :: parts)) = part.take (delivered os part.length).1 ++
      wire (sendParts (delivered os part.length).2 parts) := rfl

theorem whole_sendParts (os : List Transfer) (parts : List Bytes) :
    whole (sendParts os parts) = parts.flatten := by
  induction parts generalizing os with
  | nil => rfl
  | cons part parts ih => exact congrArg (part ++ ·) (ih _)

theorem sendMessage_cut_wp (opcode : UInt16) (payload : Option Bytes) (payloadLen : UInt32)
    (us : UInt64) (hlen : payloadLen.toNat = (payload.getD []).length)
    (h : ∀ l', l'.sent = l.sent ++ wire (sendParts l.outcomes.sends
      [serializeHeader (responseHeader opcode payloadLen us), payload.getD []]) → Q () (σ, l')) :
    (sendMessage fd opcode payload payloadLen us).wp (semantics host).handle Q (σ, l) := by
  have hskip : ∀ l' : Local, payload.getD [] = [] → l'.sent = l.sent ++
      (serializeHeader (responseHeader opcode payloadLen us)).take (delivered l.outcomes.sends
        (serializeHeader (responseHeader opcode payloadLen us)).length).1 → Q () (σ, l') := by
    intro l' hnil hsent
    apply h l'
    rw [hnil, wire_sendParts_cons, wire_sendParts_cons, hsent]
    simp [wire, sendParts]
  unfold sendMessage
  apply sendFull_cut_wp (.memory _)
  intro r₁ l₁ hsent₁ hsends₁
  cases payload with
  | none => exact (Program.wp_ret ..).mpr (hskip l₁ rfl hsent₁)
  | some body =>
    rw [Option.getD_some] at hlen hskip h
    dsimp only
    split
    · rw [load_of_le (by omega), Program.ret_bind, hlen, List.drop_zero, List.take_length]
      apply sendFull_cut_wp (.memory _)
      intro r₂ l₂ hsent₂ _
      refine (Program.wp_ret ..).mpr (h l₂ ?_)
      rw [hsends₁] at hsent₂
      rw [wire_sendParts_cons, wire_sendParts_cons, hsent₂, hsent₁, List.append_assoc]
      simp [wire, sendParts]
    · next hzero =>
      refine (Program.wp_ret ..).mpr (hskip l₁ ?_ hsent₁)
      rw [UInt32.lt_iff_toNat_lt, hlen] at hzero
      exact List.eq_nil_of_length_eq_zero (Nat.eq_zero_of_not_pos hzero)

/-- The response with a file, and what goes out of its three parts. -/
theorem downloadBody_cut_wp {name : Bytes} {content : File} {map : Option Mapping} {file : Fd}
    (us : UInt64) (hm : Mapped σ name content map file)
    (h : ∀ l', l'.sent = l.sent ++ wire (sendParts l.outcomes.sends
      [serializeHeader (responseHeader opRespFileData (UInt32.ofNat (8 + content.bytes.length)) us),
        writeU64 (UInt64.ofNat content.bytes.length), content.bytes]) → Q () (σ, l')) :
    (downloadBody fd name map content.bytes.length file us).wp (semantics host).handle
      Q (σ, l) := by
  have hmap := hm.map_eq
  have hsame : l.popSetlkw.sent = l.sent := rfl
  have hleft : l.popSetlkw.outcomes.sends = l.outcomes.sends := rfl
  unfold downloadBody
  refine wp_idle (idle_own rfl) ?_
  change Program.wp _ _ Q (σ, l.popSetlkw)
  apply sendFull_cut_wp (.memory _)
  intro r₁ l₁ hsent₁ hsends₁
  rw [hsame, hleft] at hsent₁
  rw [hleft] at hsends₁
  apply sendFull_cut_wp (.memory _)
  intro r₂ l₂ hsent₂ hsends₂
  rw [hsends₁] at hsent₂ hsends₂
  have hsent : l₂.sent = _ := hsent₂
  rw [hsent₁, List.append_assoc] at hsent
  by_cases hzero : content.bytes.length = 0
  · rw [if_pos hzero] at hmap
    subst hmap
    refine closeDownload_wp none _ file (h l₂ ?_)
    rw [List.eq_nil_of_length_eq_zero hzero] at hsent ⊢
    rw [wire_sendParts_cons, wire_sendParts_cons, hsent]
    simp [wire, sendParts]
  · rw [if_neg hzero] at hmap
    subst hmap
    dsimp only
    rw [if_pos (Nat.pos_of_ne_zero hzero)]
    have hread := Readable.mapped (m := ⟨file.ino, content.bytes.length⟩) 0 content.bytes.length
      hm.file_eq (by omega)
    rw [List.drop_zero, List.take_length] at hread
    apply sendFull_cut_wp hread
    intro r₃ l₃ hsent₃ _
    refine closeDownload_wp (some _) _ file (h l₃ ?_)
    rw [hsends₂] at hsent₃
    rw [wire_sendParts_cons, wire_sendParts_cons, wire_sendParts_cons, hsent₃, hsent]
    simp [wire, sendParts]

end Responses

/-- What has been sent since `l` is a prefix of the frame. -/
def Reaches (l l' : Local) (frame : Bytes) : Prop := ∃ out, l'.sent = l.sent ++ out ∧ out <+: frame

theorem reaches_iff {l l' : Local} {os : List Transfer} {parts : List Bytes}
    (h : l'.sent = l.sent ++ wire (sendParts os parts)) :
    Reaches l l' parts.flatten ↔ Gapless (sendParts os parts) := by
  rw [← wire_prefix_iff, whole_sendParts]
  constructor
  · intro hreaches
    obtain ⟨out, hout, hprefix⟩ := hreaches
    rwa [List.append_cancel_left (hout.symm.trans h)] at hprefix
  · intro hprefix
    exact ⟨_, h, hprefix⟩

/-- Every response, whatever becomes of its writes. -/
theorem responses_reach_iff (host : Host) (clientFd : ℕ) (σ : Bytes → Node) (l : Local) :
    (∀ opcode payload payloadLen us, payloadLen.toNat = (payload.getD []).length →
      (sendMessage clientFd opcode payload payloadLen us).wp (semantics host).handle
        (fun _ s => Reaches l s.2 (frame opcode us (payload.getD [])) ↔
          Gapless (sendParts l.outcomes.sends
            [serializeHeader (responseHeader opcode payloadLen us), payload.getD []])) (σ, l)) ∧
      ∀ name content map file us, Mapped σ name content map file →
        (downloadBody clientFd name map content.bytes.length file us).wp (semantics host).handle
          (fun _ s => Reaches l s.2 (fileFrame us content.bytes) ↔
            Gapless (sendParts l.outcomes.sends
              [serializeHeader (responseHeader opRespFileData
                  (UInt32.ofNat (8 + content.bytes.length)) us),
                writeU64 (UInt64.ofNat content.bytes.length), content.bytes])) (σ, l) := by
  constructor
  · intro opcode payload payloadLen us hlen
    apply sendMessage_cut_wp opcode payload payloadLen us hlen
    intro l' hsent
    rw [← reaches_iff hsent]
    have hlens : payloadLen = UInt32.ofNat (payload.getD []).length := by
      rw [← hlen, UInt32.ofNat_toNat]
    have hflat : [serializeHeader (responseHeader opcode payloadLen us), payload.getD []].flatten =
        frame opcode us (payload.getD []) := by
      rw [hlens]
      simp [frame]
    rw [hflat]
  · intro name content map file us hm
    apply downloadBody_cut_wp us hm
    intro l' hsent
    rw [← reaches_iff hsent]
    have hflat : [serializeHeader (responseHeader opRespFileData
        (UInt32.ofNat (8 + content.bytes.length)) us),
          writeU64 (UInt64.ofNat content.bytes.length), content.bytes].flatten =
        fileFrame us content.bytes := by
      simp [fileFrame, frame, writeU64]
    rw [hflat]

/-- A client that is gone for one write and back for the next. -/
def interrupted : Local := { outcomes := { sends := [.error] } }

def smallContent : File := ⟨[7, 8, 9], 0o644⟩

def smallFile : Bytes → Node := fun _ => { current := some smallContent }

theorem smallFile_mapped : Mapped smallFile [0x61] smallContent
    (some ⟨⟨[0x61], 0⟩, smallContent.bytes.length⟩) ⟨0, ⟨[0x61], 0⟩⟩ :=
  ⟨rfl, rfl, rfl⟩

theorem responses_reach_iff_interrupted :
    (sendMessage 5 opRespErr (some [1]) 1 0).wp (semantics anyHost).handle
        (fun _ s => Reaches interrupted s.2 (frame opRespErr 0 ((some [1]).getD [])) ↔
          Gapless (sendParts interrupted.outcomes.sends
            [serializeHeader (responseHeader opRespErr 1 0), (some [1]).getD []]))
        (smallFile, interrupted) ∧
      (downloadBody 5 [0x61] (some ⟨⟨[0x61], 0⟩, smallContent.bytes.length⟩)
          smallContent.bytes.length ⟨0, ⟨[0x61], 0⟩⟩ 0).wp (semantics anyHost).handle
        (fun _ s => Reaches interrupted s.2 (fileFrame 0 smallContent.bytes) ↔
          Gapless (sendParts interrupted.outcomes.sends
            [serializeHeader (responseHeader opRespFileData
                (UInt32.ofNat (8 + smallContent.bytes.length)) 0),
              writeU64 (UInt64.ofNat smallContent.bytes.length), smallContent.bytes]))
        (smallFile, interrupted) := by
  obtain ⟨hmessage, hfile⟩ := responses_reach_iff anyHost 5 smallFile interrupted
  exact ⟨hmessage opRespErr (some [1]) 1 0 rfl, hfile _ _ _ _ 0 smallFile_mapped⟩

/-- The body goes out although the header did not. -/
theorem response_gap :
    ¬ ∀ (host : Host) (clientFd : ℕ) (σ : Bytes → Node) (l : Local) (opcode : UInt16)
      (payload : Option Bytes) (payloadLen : UInt32) (us : UInt64),
      payloadLen.toNat = (payload.getD []).length →
      (sendMessage clientFd opcode payload payloadLen us).wp (semantics host).handle
        (fun _ s => Reaches l s.2 (frame opcode us (payload.getD []))) (σ, l) := by
  intro h
  obtain ⟨_, s, hrun, out, hout, hprefix⟩ :=
    h anyHost 5 smallFile interrupted opRespErr (some [1]) 1 0 rfl
  have heval : ((sendMessage 5 opRespErr (some [1]) 1 0).run (semantics anyHost).handle
      (smallFile, interrupted)).map (fun q => q.2.2.sent) = some [1] := by
    decide
  rw [hrun] at heval
  have hsent : s.2.sent = [1] := by simpa using heval
  have hone : out = [1] := hout.symm.trans hsent
  rw [hone] at hprefix
  exact absurd hprefix (by decide)

end NervFS.CutResponses
