import NervFS.Kernel
import NervFS.Requests

/-!
The messages that the handlers answer with, and what the sending loops put on the wire
when the socket refuses nothing. Short counts are allowed: the loops resume after them.
-/
namespace NervFS.Responses

open Programs KeyedStore KeyedStore.Semantics BigEndian Calls Protocol FileOps Handlers Kernel

def frame (opcode : UInt16) (elapsedUs : UInt64) (body : Bytes) : Bytes :=
  serializeHeader (responseHeader opcode (UInt32.ofNat body.length) elapsedUs) ++ body

def errorFrame (errCode : UInt16) (msg : Bytes) : Bytes :=
  frame opRespErr 0 (writeU16 errCode ++ (writeU16 (UInt16.ofNat msg.length) ++ msg))

/-- The payload of the answer to an upload. -/
def metricsBody (networkUs writeUs syncUs : UInt64) : Bytes :=
  writeU64 networkUs ++ (writeU64 writeUs ++ writeU64 syncUs)

theorem metricsBody_length (networkUs writeUs syncUs : UInt64) :
    (metricsBody networkUs writeUs syncUs).length = 24 := by
  simp [metricsBody, writeU64]

def fileFrame (elapsedUs : UInt64) (content : Bytes) : Bytes :=
  frame opRespFileData elapsedUs (writeU64 (UInt64.ofNat content.length) ++ content)

theorem frame_inj {opcode opcode' : UInt16} {us us' : UInt64} {body body' : Bytes}
    (h : frame opcode us body = frame opcode' us' body') : opcode = opcode' ∧ body = body' := by
  obtain ⟨hheader, hbody⟩ := List.append_inj h
    ((serializeHeader_length _).trans (serializeHeader_length _).symm)
  have hparse := parseHeader_serializeHeader
    (responseHeader opcode (UInt32.ofNat body.length) us) [] rfl rfl
  rw [hheader, parseHeader_serializeHeader _ [] rfl rfl] at hparse
  exact ⟨(congrArg Header.opcode (Option.some.inj hparse)).symm, hbody⟩

/-- The socket takes what is written to it, in pieces of any size. -/
def Delivers (l : Local) : Prop := ∀ o ∈ l.outcomes.sends, o ≠ .error

/-- Besides, the buffers of the responses can be allocated. -/
structure Steady (l : Local) : Prop where
  delivers : Delivers l
  mallocs : ∀ b ∈ l.outcomes.mallocs, b = true

/-- The bytes that a buffer stands for, all of them present. -/
inductive Readable (σ : Bytes → Node) : Buffer → Bytes → Prop
  | memory (bytes : Bytes) : Readable σ (.memory bytes) bytes
  | mapped {m : Mapping} {f : File} (off len : ℕ)
      (hf : (σ m.ino.name).file m.ino.generation = some f)
      (hlen : off + len ≤ f.bytes.length) :
      Readable σ (.mapped m off len) ((f.bytes.drop off).take len)

theorem Readable.length {σ : Bytes → Node} {buf : Buffer} {bytes : Bytes}
    (h : Readable σ buf bytes) : buf.length = bytes.length := by
  cases h with
  | memory bytes => rfl
  | mapped off len hf hlen =>
    simp only [Buffer.length, List.length_take, List.length_drop]
    omega

theorem Readable.drop {σ : Bytes → Node} {buf : Buffer} {bytes : Bytes} {n : ℕ}
    (h : Readable σ buf bytes) (hn : n ≤ bytes.length) :
    Readable σ (buf.drop n) (bytes.drop n) := by
  cases h with
  | memory bytes => exact .memory _
  | mapped off len hf hlen =>
    simp only [List.length_take, List.length_drop] at hn
    rw [List.drop_take, List.drop_drop]
    exact .mapped (off + n) (len - n) hf (by omega)

theorem head_ne_error {os : List Transfer} (h : ∀ o ∈ os, o ≠ .error) :
    os.headD .all ≠ .error := by
  cases os with
  | nil => exact fun heq => nomatch heq
  | cons o os => exact h o List.mem_cons_self

theorem head_mallocs {bs : List Bool} (h : ∀ b ∈ bs, b = true) : bs.headD true = true := by
  cases bs with
  | nil => rfl
  | cons b bs => exact h b List.mem_cons_self

/-- One socket write moves a nonempty part of what it is offered. -/
theorem sendFrom_steady {buf : Buffer} {bytes : Bytes} {l : Local}
    (hlen : buf.length = bytes.length) (hne : bytes ≠ []) (hl : Delivers l) :
    ∃ n l', sendFrom buf bytes l = (some n, l') ∧ l'.sent = l.sent ++ bytes.take n ∧
      Delivers l' := by
  have hpos : 0 < bytes.length := List.length_pos_iff.mpr hne
  have htail : ∀ o ∈ l.outcomes.sends.tail, o ≠ .error :=
    fun o ho => hl o (List.mem_of_mem_tail ho)
  unfold sendFrom
  cases ho : l.outcomes.sends.headD .all with
  | all =>
    simp only
    rw [dif_pos ⟨hpos, by omega⟩]
    exact ⟨_, _, rfl, rfl, htail⟩
  | short n =>
    simp only
    rw [dif_pos ⟨by omega, by omega⟩]
    exact ⟨_, _, rfl, rfl, htail⟩
  | error => exact absurd ho (head_ne_error hl)

section Sending
variable {host : Host} {σ : Bytes → Node} {fd : ℕ} {buf : Buffer} {bytes : Bytes}

theorem sockWrite_reads_wp {α : Type} {Q : α → (Bytes → Node) × Local → Prop} {l : Local}
    {f : Option { n : ℕ // 0 < n ∧ n ≤ buf.length } → Prog α} (hb : Readable σ buf bytes)
    (h : (f (sendFrom buf bytes l).1).wp (semantics host).handle Q (σ, (sendFrom buf bytes l).2)) :
    (sockWrite fd buf >>= f).wp (semantics host).handle Q (σ, l) := by
  cases hb with
  | memory bytes => exact wp_idle (idle_own rfl) h
  | @mapped map file off len hf hlen =>
    have hdata : ((pageFill file.bytes).drop off).take len = (file.bytes.drop off).take len := by
      rw [pageFill, List.drop_append_of_le_length (by omega), List.take_append_of_le_length]
      rw [List.length_drop]
      omega
    refine wp_access (M := semantics host) (k := map.ino.name) (m := .shared) rfl ?_
    have htouch : (semantics host).touch (.sockWrite fd (.mapped map off len))
        (σ map.ino.name) l = ((sendFrom (.mapped map off len) ((file.bytes.drop off).take len) l).1,
          σ map.ino.name,
          (sendFrom (.mapped map off len) ((file.bytes.drop off).take len) l).2) := by
      simp only [semantics, Kernel.touch, hf, hdata]
    rw [htouch]
    simp only [Function.update_eq_self]
    exact h

theorem sockWrite_wp {α : Type} {Q : α → (Bytes → Node) × Local → Prop} {l : Local}
    {f : Option { n : ℕ // 0 < n ∧ n ≤ buf.length } → Prog α}
    (hb : Readable σ buf bytes) (hne : bytes ≠ []) (hl : Delivers l)
    (h : ∀ n l', l'.sent = l.sent ++ bytes.take n.val → Delivers l' →
      (f (some n)).wp (semantics host).handle Q (σ, l')) :
    (sockWrite fd buf >>= f).wp (semantics host).handle Q (σ, l) := by
  obtain ⟨n, l', hsend, hsent, hl'⟩ := sendFrom_steady hb.length hne hl
  apply sockWrite_reads_wp hb
  rw [hsend]
  exact h n l' hsent hl'

theorem sendLoop_wp {α : Type} {Q : α → (Bytes → Node) × Local → Prop} {l : Local}
    {f : Option ℕ → Prog α} (rounds total : ℕ) (hb : Readable σ buf bytes)
    (hrounds : bytes.length ≤ rounds) (hl : Delivers l)
    (h : ∀ l', l'.sent = l.sent ++ bytes → Delivers l' →
      (f (some (total + bytes.length))).wp (semantics host).handle Q (σ, l')) :
    (sendLoop fd rounds buf total >>= f).wp (semantics host).handle Q (σ, l) := by
  induction rounds generalizing buf bytes total l with
  | zero =>
    have hnil : bytes = [] := List.eq_nil_of_length_eq_zero (by omega)
    subst hnil
    exact h l (List.append_nil _).symm hl
  | succ rounds ih =>
    unfold sendLoop
    by_cases hzero : buf.length = 0
    · have hnil : bytes = [] := List.eq_nil_of_length_eq_zero (hb.length ▸ hzero)
      subst hnil
      rw [if_pos hzero]
      exact h l (List.append_nil _).symm hl
    · have hne : bytes ≠ [] := by
        rintro rfl
        exact hzero hb.length
      rw [if_neg hzero]
      refine sockWrite_wp hb hne hl fun n l' hsent hl' => ?_
      have hn : n.val ≤ bytes.length := hb.length ▸ n.property.2
      refine ih (total + n.val) (hb.drop hn) ?_ hl' fun l'' hsent' hl'' => ?_
      · rw [List.length_drop]
        have := n.property.1
        omega
      · have hlen : total + n.val + (bytes.drop n.val).length = total + bytes.length := by
          rw [List.length_drop]
          omega
        rw [hlen]
        refine h l'' ?_ hl''
        rw [hsent', hsent, List.append_assoc, List.take_append_drop]

theorem sendFull_wp {α : Type} {Q : α → (Bytes → Node) × Local → Prop} {l : Local}
    {f : Option ℕ → Prog α} (hb : Readable σ buf bytes) (hl : Delivers l)
    (h : ∀ l', l'.sent = l.sent ++ bytes → Delivers l' →
      (f (some bytes.length)).wp (semantics host).handle Q (σ, l')) :
    (sendFull fd buf >>= f).wp (semantics host).handle Q (σ, l) := by
  refine sendLoop_wp _ 0 hb (le_of_eq hb.length.symm) hl ?_
  rw [Nat.zero_add]
  exact h

theorem sendMessage_wp {Q : Unit → (Bytes → Node) × Local → Prop} {l : Local}
    (opcode : UInt16) (body : Bytes) (elapsedUs : UInt64) (hlen : body.length < 2 ^ 32)
    (hl : Delivers l)
    (h : ∀ l', l'.sent = l.sent ++ frame opcode elapsedUs body → Q () (σ, l')) :
    (sendMessage fd opcode (some body) (UInt32.ofNat body.length) elapsedUs).wp
      (semantics host).handle Q (σ, l) := by
  have hnat : (UInt32.ofNat body.length).toNat = body.length := UInt32.toNat_ofNat_of_lt' hlen
  unfold sendMessage
  refine sendFull_wp (.memory _) hl fun l₁ hsent₁ hl₁ => ?_
  dsimp only
  split
  · rw [hnat, Requests.load_of_le (by omega), Program.ret_bind, List.drop_zero, List.take_length]
    refine sendFull_wp (.memory _) hl₁ fun l₂ hsent₂ _ => ?_
    refine (Program.wp_ret ..).mpr (h l₂ ?_)
    rw [hsent₂, hsent₁, List.append_assoc]
    rfl
  · next hzero =>
    have hnil : body = [] := by
      refine List.eq_nil_of_length_eq_zero ?_
      rw [UInt32.lt_iff_toNat_lt, hnat] at hzero
      exact Nat.eq_zero_of_not_pos hzero
    subst hnil
    refine (Program.wp_ret ..).mpr (h l₁ ?_)
    rw [hsent₁, frame, List.append_nil]

theorem sendMetrics_wp {Q : Unit → (Bytes → Node) × Local → Prop} {l : Local}
    (networkUs writeUs syncUs us : UInt64) (hl : Delivers l)
    (h : ∀ l', l'.sent = l.sent ++ frame opRespOk us (metricsBody networkUs writeUs syncUs) →
      Q () (σ, l')) :
    (sendMessage fd opRespOk (some (metricsBody networkUs writeUs syncUs)) 24 us).wp
      (semantics host).handle Q (σ, l) :=
  sendMessage_wp opRespOk (metricsBody networkUs writeUs syncUs) us
    (by rw [metricsBody_length]; decide) hl h

theorem sendOk_wp {Q : Unit → (Bytes → Node) × Local → Prop} {l : Local} (elapsedUs : UInt64)
    (hl : Delivers l)
    (h : ∀ l', l'.sent = l.sent ++ frame opRespOk elapsedUs [] → Q () (σ, l')) :
    (sendOk fd elapsedUs).wp (semantics host).handle Q (σ, l) := by
  unfold sendOk sendMessage
  refine sendFull_wp (.memory _) hl fun l₁ hsent₁ _ => ?_
  refine (Program.wp_ret ..).mpr (h l₁ ?_)
  rw [hsent₁, frame, List.append_nil]
  rfl

/-- An error response goes out whole, or not at all when its buffer is missing. -/
theorem sendError_wp {Q : Unit → (Bytes → Node) × Local → Prop} {l : Local} (errCode : UInt16)
    (msg : Bytes) (hlen : msg.length < 65536) (hl : Delivers l)
    (hnone : l.outcomes.mallocs.headD true = false → Q () (σ, l.popMalloc))
    (h : ∀ l', l'.sent = l.sent ++ errorFrame errCode msg → Q () (σ, l')) :
    (sendError fd errCode msg).wp (semantics host).handle Q (σ, l) := by
  have hnat : (UInt16.ofNat msg.length).toNat = msg.length := UInt16.toNat_ofNat_of_lt' hlen
  unfold sendError
  refine wp_idle (idle_own rfl) ?_
  change Program.wp _ (if l.outcomes.mallocs.headD true = true then _ else _) Q (σ, l.popMalloc)
  by_cases hm : l.outcomes.mallocs.headD true = true
  · rw [if_pos hm, hnat, Requests.load_of_le (by omega), Program.ret_bind, List.drop_zero,
      List.take_length]
    have hbody : (writeU16 errCode ++ (writeU16 (UInt16.ofNat msg.length) ++ msg)).length =
        4 + msg.length := by
      simp only [List.length_append, writeU16, toBytes_length]
      omega
    have hsize : 2 + 2 + (UInt16.ofNat msg.length).toUInt32 =
        UInt32.ofNat (writeU16 errCode ++ (writeU16 (UInt16.ofNat msg.length) ++ msg)).length := by
      apply UInt32.toNat_inj.mp
      rw [hbody]
      simp only [UInt32.toNat_add, UInt16.toNat_toUInt32, hnat, UInt32.toNat_ofNat',
        UInt32.reduceToNat]
    rw [hsize]
    exact sendMessage_wp opRespErr _ 0 (by omega) hl h
  · rw [if_neg hm]
    exact (Program.wp_ret ..).mpr (hnone (Bool.eq_false_iff.mpr hm))

theorem sendError_steady_wp {Q : Unit → (Bytes → Node) × Local → Prop} {l : Local}
    (errCode : UInt16) (msg : Bytes) (hlen : msg.length < 65536) (hl : Steady l)
    (h : ∀ l', l'.sent = l.sent ++ errorFrame errCode msg → Q () (σ, l')) :
    (sendError fd errCode msg).wp (semantics host).handle Q (σ, l) := by
  refine sendError_wp errCode msg hlen hl.delivers (fun hm => ?_) h
  rw [head_mallocs hl.mallocs] at hm
  cases hm

end Sending

end NervFS.Responses
