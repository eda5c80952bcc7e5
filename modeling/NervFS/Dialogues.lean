import NervFS.Exchanges
import NervFS.Downloads

/-!
A command and the server over one connection, either end of which may fail. The command
writes its request in pieces of any size, and the server answers what was written when the
command begins to wait; a beginning of the answer arrives, in pieces again. However that
goes, the command prints what the answer says, or it fails, or a signal kills it.
-/
namespace NervFS.Dialogues

open Programs Transitions Calls Protocol FileOps Handlers Requests Operations Kernel Responses
open Listings BridgeReplies World Replies Workers Serving Catalog Exchanges CommandLine
open CommandReplies CommandFrames CommandSafety Downloads

/-- A connection between its two ends. -/
structure Conn where
  server : Server
  written : Bytes := []
  /-- what is still to be read, once the client waits -/
  incoming : Option Bytes := none
  answered : Bool := false

/-- What is written when the client waits already comes too late for the server. -/
def Conn.write (c : Conn) (bytes : Bytes) : Conn :=
  if c.incoming = none then { c with written := c.written ++ bytes } else c

theorem Conn.write_same (c : Conn) (bytes : Bytes) :
    (c.write bytes).server = c.server ∧ (c.write bytes).incoming = c.incoming := by
  unfold Conn.write
  split <;> exact ⟨rfl, rfl⟩

/-- The client begins to wait: the server answers, and a beginning of the answer arrives, or
the connection breaks before. -/
inductive Waits (host : Host) (c : Conn) : Conn → Prop
  | already {stream : Bytes} (h : c.incoming = some stream) : Waits host c c
  | answer {bytes stream : Bytes} {s : Server} (hwriting : c.incoming = none)
    (hhandles : Handles host c.server c.written bytes s) (hstream : stream <+: bytes) :
    Waits host c ⟨s, c.written, some stream, true⟩
  | part (hwriting : c.incoming = none) : Waits host c { c with incoming := some [] }

/-- How a program on the client's side of the connection may end; `none` is a death by
SIGPIPE, which the client does not ignore. Allocations and socket calls may fail at any time;
a read delivers any part of what is there, and nothing only at the end. -/
def Talks {α : Type} (host : Host) (fd : ℕ) : Prog α → Conn → Option α → Conn → Prop
  | .ret b, c, a, c' => a = some b ∧ c' = c
  | .stuck, _, _, _ => False
  | .call (.malloc _) k, c, a, c' => ∃ r, Talks host fd (k r) c a c'
  -- a write to a connection that the server has closed does not return
  | .call (.sockWrite fd' (.memory bytes)) k, c, a, c' => fd' = fd ∧
    (a = none ∧ c' = c ∨ Talks host fd (k none) c a c' ∨
      ∃ n, Talks host fd (k (some n)) (c.write (bytes.take n.val)) a c')
  | .call (.sockRead fd' len) k, c, a, c' => fd' = fd ∧ ∃ m, Waits host c m ∧
    (Talks host fd (k none) m a c' ∨ ∃ stream, m.incoming = some stream ∧
      ∃ n, ∃ hn : (stream.take n).length ≤ len, n ≤ stream.length ∧ (n = 0 → stream = []) ∧
        Talks host fd (k (some ⟨stream.take n, hn⟩)) { m with incoming := some (stream.drop n) }
          a c')
  | .call (.sockClose fd') k, c, a, c' => fd' = fd ∧ Talks host fd (k ()) c a c'
  | .call _ _, _, _, _ => False

/-- What the client leaves to a server that has not answered it. -/
def Conn.abandoned (c : Conn) : List Bytes :=
  if c.answered ∨ c.written = [] then [] else [c.written]

section Phases
variable {α β : Type} {host : Host} {fd : ℕ} {c c' : Conn}

/-- A program in two parts is killed in the first, or goes on with the second. -/
theorem Talks.bind_inv {p : Prog α} {f : α → Prog β} {b : Option β}
    (h : Talks host fd (p >>= f) c b c') :
    (b = none ∧ Talks host fd p c none c') ∨
      ∃ a m, Talks host fd p c (some a) m ∧ Talks host fd (f a) m b c' := by
  induction p generalizing c with
  | ret a => exact Or.inr ⟨a, c, ⟨rfl, rfl⟩, h⟩
  | stuck => exact h.elim
  | call e k ih =>
    cases e with
    | malloc size =>
      obtain ⟨r, h⟩ := h
      rcases ih r h with ⟨hb, hp⟩ | ⟨a, m, hp, hf⟩
      · exact Or.inl ⟨hb, r, hp⟩
      · exact Or.inr ⟨a, m, ⟨r, hp⟩, hf⟩
    | sockWrite fd' buf =>
      cases buf with
      | mapped map off len => exact h.elim
      | memory bytes =>
        obtain ⟨hfd, ⟨hb, hc⟩ | h | ⟨n, h⟩⟩ := h
        · exact Or.inl ⟨hb, hfd, Or.inl ⟨rfl, hc⟩⟩
        · rcases ih none h with ⟨hb, hp⟩ | ⟨a, m, hp, hf⟩
          · exact Or.inl ⟨hb, hfd, Or.inr (Or.inl hp)⟩
          · exact Or.inr ⟨a, m, ⟨hfd, Or.inr (Or.inl hp)⟩, hf⟩
        · rcases ih (some n) h with ⟨hb, hp⟩ | ⟨a, m, hp, hf⟩
          · exact Or.inl ⟨hb, hfd, Or.inr (Or.inr ⟨n, hp⟩)⟩
          · exact Or.inr ⟨a, m, ⟨hfd, Or.inr (Or.inr ⟨n, hp⟩)⟩, hf⟩
    | sockRead fd' len =>
      obtain ⟨hfd, w, hwaits, h | ⟨stream, hstream, n, hn, hle, hend, h⟩⟩ := h
      · rcases ih none h with ⟨hb, hp⟩ | ⟨a, m, hp, hf⟩
        · exact Or.inl ⟨hb, hfd, w, hwaits, Or.inl hp⟩
        · exact Or.inr ⟨a, m, ⟨hfd, w, hwaits, Or.inl hp⟩, hf⟩
      · have hread : ∀ {a : Option α} {m}, Talks host fd (k (some ⟨stream.take n, hn⟩))
            { w with incoming := some (stream.drop n) } a m →
              Talks host fd (.call (.sockRead fd' len) k) c a m :=
          fun hp => ⟨hfd, w, hwaits, Or.inr ⟨stream, hstream, n, hn, hle, hend, hp⟩⟩
        rcases ih _ h with ⟨hb, hp⟩ | ⟨a, m, hp, hf⟩
        · exact Or.inl ⟨hb, hread hp⟩
        · exact Or.inr ⟨a, m, hread hp, hf⟩
    | sockClose fd' =>
      obtain ⟨hfd, h⟩ := h
      rcases ih () h with ⟨hb, hp⟩ | ⟨a, m, hp, hf⟩
      · exact Or.inl ⟨hb, hfd, hp⟩
      · exact Or.inr ⟨a, m, ⟨hfd, hp⟩, hf⟩
    | _ => exact h.elim

theorem Talks.always {Q : α → Bytes → Prop} {p : Prog α} {a : Option α} {stream : Bytes}
    (h : Talks host fd p c a c') (hwaiting : c.incoming = some stream) (hp : Always Q p stream) :
    (∀ b ∈ a, ∃ rest, Q b rest) ∧ c'.server = c.server ∧ c'.written = c.written ∧
      c'.answered = c.answered := by
  induction p generalizing c stream with
  | ret b =>
    obtain ⟨rfl, rfl⟩ := h
    refine ⟨?_, rfl, rfl, rfl⟩
    rintro _ ⟨⟩
    exact ⟨_, hp⟩
  | stuck => exact h.elim
  | call e k ih =>
    cases e with
    | malloc size =>
      obtain ⟨r, h⟩ := h
      exact ih r h hwaiting (hp r)
    | sockWrite fd' buf =>
      cases buf with
      | mapped map off len => exact h.elim
      | memory bytes =>
        obtain ⟨-, ⟨rfl, rfl⟩ | h | ⟨n, h⟩⟩ := h
        · exact ⟨by rintro _ ⟨⟩, rfl, rfl, rfl⟩
        · exact ih none h hwaiting (hp none)
        · have hlate : c.write (bytes.take n.val) = c := if_neg (by rw [hwaiting]; nofun)
          rw [hlate] at h
          exact ih (some n) h hwaiting (hp (some n))
    | sockRead fd' len =>
      obtain ⟨-, m, hwaits, h⟩ := h
      have hsame : m = c := by
        cases hwaits with
        | already h => rfl
        | answer hwriting =>
          rw [hwaiting] at hwriting
          cases hwriting
        | part hwriting =>
          rw [hwaiting] at hwriting
          cases hwriting
      subst hsame
      rcases h with h | ⟨stream', hstream, n, hn, hle, hend, h⟩
      · exact ih none h hwaiting hp.1
      · rw [hwaiting] at hstream
        cases hstream
        exact ih (some ⟨stream.take n, hn⟩) (c := { m with incoming := some (stream.drop n) }) h rfl
          (hp.2 n hn hle hend)
    | sockClose fd' => exact hp.elim
    | _ => exact h.elim

/-- The two phases of a command that sends one frame: it has not waited, and prints what it
would print without an answer, or the server has its frame. -/
theorem Talks.phases {good : Bytes → Prop} {F : α → Prop} {Q : Server → α → Prop} {p : Prog α}
    {s : Server} {sent : Bytes} {a : Option α} {fd₀ : ℕ} (hwrites : Writes fd₀ good sent p)
    (hsent : sent = [] ∨ ∃ frame, good frame ∧ sent <+: frame)
    (halone : Always (fun a _ => F a) p [])
    (hanswer : ∀ frame bytes t, good frame → Handles host s frame bytes t →
      ∀ stream, stream <+: bytes → Always (fun a _ => Q t a) p stream)
    (h : Talks host fd p { server := s, written := sent } a c') :
    (c'.server = s ∧ c'.answered = false ∧ (∀ b ∈ a, F b) ∧
      (c'.written = [] ∨ ∃ frame, good frame ∧ c'.written <+: frame)) ∨
    (c'.answered = true ∧ (∀ b ∈ a, Q c'.server b) ∧
      ∃ frame bytes, good frame ∧ Handles host s frame bytes c'.server) := by
  induction p generalizing sent with
  | ret b =>
    obtain ⟨rfl, rfl⟩ := h
    refine Or.inl ⟨rfl, rfl, ?_, hsent⟩
    rintro _ ⟨⟩
    exact halone
  | stuck => exact h.elim
  | call e k ih =>
    cases e with
    | malloc size =>
      obtain ⟨r, h⟩ := h
      exact ih r (hwrites r) hsent (halone r)
        (fun frame bytes t hgood hhandles stream hstream =>
          hanswer frame bytes t hgood hhandles stream hstream r) h
    | sockWrite fd' buf =>
      cases buf with
      | mapped map off len => exact h.elim
      | memory bytes =>
        obtain ⟨-, ⟨frame, hgood, hpart⟩, hnext, b, hfail⟩ := hwrites
        have hsent' : sent <+: frame := (List.prefix_append _ _).trans hpart
        obtain ⟨-, ⟨rfl, rfl⟩ | h | ⟨n, h⟩⟩ := h
        · exact Or.inl ⟨rfl, rfl, by rintro _ ⟨⟩, Or.inr ⟨frame, hgood, hsent'⟩⟩
        · have hsome := halone none
          rw [hfail] at h hsome
          obtain ⟨rfl, rfl⟩ := h
          refine Or.inl ⟨rfl, rfl, ?_, Or.inr ⟨frame, hgood, hsent'⟩⟩
          rintro _ ⟨⟩
          exact hsome
        · refine ih (some n) (hnext n) (Or.inr ⟨frame, hgood, ?_⟩) (halone (some n))
            (fun frame bytes t hgood hhandles stream hstream =>
              hanswer frame bytes t hgood hhandles stream hstream (some n)) h
          exact ((List.prefix_append_right_inj sent).mpr (List.take_prefix _ _)).trans hpart
    | sockRead fd' len =>
      obtain ⟨hfd, m, hwaits, h⟩ := h
      have hgood : good sent := hwrites.2
      have hreading : ∀ {stream}, m.incoming = some stream →
          Talks host fd (.call (.sockRead fd' len) k) m a c' :=
        fun hstream => ⟨hfd, m, .already hstream, h⟩
      cases hwaits with
      | already hwaiting => cases hwaiting
      | @answer bytes stream t hwriting hhandles hstream =>
        obtain ⟨hQ, hserver, hwritten, hanswered⟩ :=
          (hreading rfl).always rfl (hanswer sent bytes t hgood hhandles stream hstream)
        refine Or.inr ⟨hanswered, fun b hb => ?_, sent, bytes, hgood, ?_⟩
        · rw [hserver]
          exact (hQ b hb).choose_spec
        · rw [hserver]
          exact hhandles
      | part hwriting =>
        obtain ⟨hF, hserver, hwritten, hanswered⟩ := (hreading rfl).always rfl halone
        refine Or.inl ⟨hserver, hanswered, fun b hb => (hF b hb).choose_spec, ?_⟩
        exact Or.inr ⟨sent, hgood, hwritten ▸ List.prefix_refl _⟩
    | _ => exact hwrites.elim

end Phases

/-- How a program ends on a connection on which nothing fails, where `written` is answered with
`bytes`. -/
def unbroken {α : Type} (fd : ℕ) (written bytes : Bytes) (t : Server) :
    Prog α → Conn → Option (α × Conn)
  | .ret a, c => some (a, c)
  | .call (.malloc _) k, c => unbroken fd written bytes t (k true) c
  | .call (.sockWrite fd' (.memory chunk)) k, c =>
    if h : fd' = fd ∧ 0 < chunk.length then
      unbroken fd written bytes t (k (some ⟨chunk.length, h.2, le_refl _⟩)) (c.write chunk)
    else none
  | .call (.sockRead fd' len) k, c =>
    if fd' = fd ∧ 0 < len then
      match c.incoming with
      | some stream =>
        unbroken fd written bytes t (k (some ⟨stream.take len, List.length_take_le _ _⟩))
          { c with incoming := some (stream.drop len) }
      | none =>
        if c.written = written then
          unbroken fd written bytes t (k (some ⟨bytes.take len, List.length_take_le _ _⟩))
            ⟨t, written, some (bytes.drop len), true⟩
        else none
    else none
  | .call (.sockClose fd') k, c => if fd' = fd then unbroken fd written bytes t (k ()) c else none
  | _, _ => none

/-- What arrives whole is taken up to the length that was asked for. -/
theorem read_whole {len : ℕ} (hlen : 0 < len) (stream : Bytes) :
    ∃ n, n ≤ stream.length ∧ (n = 0 → stream = []) ∧ stream.take n = stream.take len ∧
      stream.drop n = stream.drop len := by
  refine ⟨min len stream.length, min_le_right _ _, fun h => ?_, ?_, ?_⟩
  · exact List.eq_nil_of_length_eq_zero (by omega)
  · exact List.take_eq_take_min.symm
  · exact List.drop_eq_drop_min.symm

theorem talks_of_unbroken {α : Type} {host : Host} {fd : ℕ} {written bytes : Bytes}
    {s t : Server} {p : Prog α} {c c' : Conn} {a : α} (hhandles : Handles host s written bytes t)
    (hserver : c.incoming = none → c.server = s)
    (h : unbroken fd written bytes t p c = some (a, c')) : Talks host fd p c (some a) c' := by
  induction p generalizing c with
  | ret b =>
    cases h
    exact ⟨rfl, rfl⟩
  | stuck => cases h
  | call e k ih =>
    cases e with
    | malloc size => exact ⟨true, ih true hserver h⟩
    | sockWrite fd' buf =>
      cases buf with
      | mapped map off len => cases h
      | memory chunk =>
        unfold unbroken at h
        split at h
        · rename_i hwhole
          obtain ⟨hsame, hincoming⟩ := Conn.write_same c chunk
          refine ⟨hwhole.1, Or.inr (Or.inr ⟨⟨chunk.length, hwhole.2, le_refl _⟩, ?_⟩)⟩
          rw [List.take_length]
          refine ih _ (fun hwriting => ?_) h
          rw [hsame]
          exact hserver (hincoming.symm.trans hwriting)
        · cases h
    | sockRead fd' len =>
      unfold unbroken at h
      split at h
      · rename_i hwhole
        refine ⟨hwhole.1, ?_⟩
        cases hwaiting : c.incoming with
        | some stream =>
          rw [hwaiting] at h
          obtain ⟨n, hle, hend, htake, hdrop⟩ := read_whole hwhole.2 stream
          refine ⟨c, .already hwaiting, Or.inr ⟨stream, hwaiting, n, ?_, hle, hend, ?_⟩⟩
          · rw [htake]
            exact List.length_take_le _ _
          · simp only [htake, hdrop]
            exact ih _ nofun h
        | none =>
          rw [hwaiting] at h
          dsimp only at h
          split at h
          · rename_i hwritten
            subst hwritten
            obtain ⟨n, hle, hend, htake, hdrop⟩ := read_whole hwhole.2 bytes
            refine ⟨_, .answer hwaiting (hserver hwaiting ▸ hhandles) (List.prefix_refl _),
              Or.inr ⟨bytes, rfl, n, ?_, hle, hend, ?_⟩⟩
            · rw [htake]
              exact List.length_take_le _ _
            · simp only [htake, hdrop]
              exact ih _ nofun h
          · cases h
      · cases h
    | sockClose fd' =>
      unfold unbroken at h
      split at h
      · rename_i hfd
        exact ⟨hfd, ih () hserver h⟩
      · cases h
    | _ => cases h

/-- The command has failed on its own: it prints no more than complaints, and saves nothing. -/
def Fails (r : Result) : Prop :=
  r.rc = 1 ∧ r.saved = none ∧ ∀ line ∈ r.lines, ∃ text, line = .complaint text

/-- The command has printed the answer, and saved the file in it. The times of an upload may
be missing. -/
def Shows (out : Output) : Message → Result → Prop
  | .ok us, r => r = ⟨0, [.ok us], none⟩
  | .metrics us networkUs writeUs syncUs, r =>
    r = ⟨0, [.okMetrics us networkUs writeUs syncUs], none⟩ ∨ r = ⟨0, [.ok us], none⟩
  | .error errCode text, r => r = ⟨1, [.error errCode text], none⟩
  | .listing us entries, r =>
    r = ⟨0, .count (UInt32.ofNat entries.length) us :: entries.map entryLine, none⟩
  | .file us content, r =>
    r = ⟨0, [.downloaded (UInt64.ofNat content.length) us], some (content.take out.written)⟩

theorem fails_complaint (text : Bytes) : Fails ⟨1, [.complaint text], none⟩ :=
  ⟨rfl, rfl, fun _ hline => ⟨text, List.mem_singleton.mp hline⟩⟩

section Answers
variable {α : Type} {Q : α → Bytes → Prop} {fd : ℕ} {out : Output} {stream body : Bytes}

/-- The header is there or the command fails, and a beginning of the body is behind it. -/
theorem always_header_prefix {h : Header} {f : Except Line Header → Prog α}
    (hmagic : h.magic = nervfsMagic) (hversion : h.version = nervfsVersion)
    (hstream : stream <+: serializeHeader h ++ body)
    (hfail : ∀ text left, Always Q (f (.error (.complaint text))) left)
    (hok : ∀ rest, rest <+: body → Always Q (f (.ok h)) rest) :
    Always Q (readResponseHeader fd >>= f) stream := by
  apply (always_readHeader_iff hfail).mpr
  intro resp hle hparse
  obtain ⟨tail, htail⟩ := hstream
  have hsize := serializeHeader_length h
  have hhead : stream.take nervfsHeaderSize = serializeHeader h := by
    have htake : (stream ++ tail).take nervfsHeaderSize = _ := List.take_append_of_le_length hle
    rw [← htake, htail, List.take_left' hsize]
  have hrest : stream.drop nervfsHeaderSize ++ tail = body := by
    rw [← List.drop_append_of_le_length hle, htail, List.drop_left' hsize]
  have hself := parseHeader_serializeHeader h [] hmagic hversion
  rw [List.append_nil] at hself
  rw [hhead, hself] at hparse
  cases hparse
  exact hok _ ⟨tail, hrest⟩

theorem always_payload_prefix {payload : Bytes} {len : ℕ} {f : Option Bytes → Prog α}
    (hlen : payload.length = len) (hstream : stream <+: payload ++ body)
    (hfail : ∀ left, Always Q (f none) left)
    (hok : ∀ rest, rest <+: body → Always Q (f (some payload)) rest) :
    Always Q (recvExactly fd len >>= f) stream := by
  apply (always_recvExactly_iff hfail).mpr
  intro hle
  obtain ⟨tail, htail⟩ := hstream
  have hhead : stream.take len = payload := by
    have htake : (stream ++ tail).take len = _ := List.take_append_of_le_length hle
    rw [← htake, htail, List.take_left' hlen]
  have hrest : stream.drop len ++ tail = body := by
    rw [← List.drop_append_of_le_length hle, htail, List.drop_left' hlen]
  rw [hhead]
  exact hok _ ⟨tail, hrest⟩

/-- What the commands print and save for a message, or for a part of it. -/
abbrev Tells (out : Output) (msg : Message) (p : Prog Result) (stream : Bytes) : Prop :=
  Always (fun r _ => Shows out msg r ∨ Fails r) p stream

theorem ok_tells (us : UInt64) :
    Tells out (.ok us) (printSimpleResult fd (responseHeader opRespOk 0 us)) stream := Or.inl rfl

theorem metrics_tells (us networkUs writeUs syncUs : UInt64)
    (hstream : stream <+: metricsBody networkUs writeUs syncUs) :
    Tells out (.metrics us networkUs writeUs syncUs)
      (printSimpleResult fd (responseHeader opRespOk 24 us)) stream := by
  have h0 : readU64 (metricsBody networkUs writeUs syncUs) 0 = .ret networkUs :=
    readU64_append [] _ networkUs rfl
  have h8 : readU64 (metricsBody networkUs writeUs syncUs) 8 = .ret writeUs :=
    readU64_append (writeU64 networkUs) (writeU64 syncUs) writeUs (BigEndian.toBytes_length ..).symm
  have h16 : readU64 (metricsBody networkUs writeUs syncUs) 16 = .ret syncUs := by
    have hr : readU64 (writeU64 networkUs ++ writeU64 writeUs ++ (writeU64 syncUs ++ [])) 16 =
        .ret syncUs := readU64_append _ [] syncUs (by simp [writeU64])
    rwa [List.append_nil, List.append_assoc] at hr
  have hstream' : stream <+: metricsBody networkUs writeUs syncUs ++ [] := by
    rwa [List.append_nil]
  refine always_payload_prefix (metricsBody_length ..) hstream' (fun left => ?_) fun rest _ => ?_
  · exact Or.inl (Or.inr rfl)
  · dsimp only
    rw [h0, Program.ret_bind, h8, Program.ret_bind, h16, Program.ret_bind]
    exact Or.inl (Or.inl rfl)

theorem errorBody_length (errCode : UInt16) (text : Bytes) :
    (errorBody errCode text).length = 4 + text.length := by
  simp only [errorBody, writeU16, List.length_append, BigEndian.toBytes_length]
  omega

theorem error_tells {h : Header} (errCode : UInt16) {text : Bytes} (hop : h.opcode = opRespErr)
    (hlen : h.payloadLen.toNat = (errorBody errCode text).length) (htext : text.length < 65536)
    (hnul : 0 ∉ text) (hstream : stream <+: errorBody errCode text) :
    Tells out (.error errCode text) (printSimpleResult fd h) stream := by
  have hnat : (UInt16.ofNat text.length).toNat = text.length := UInt16.toNat_ofNat_of_lt' htext
  have h0 : readU16 (errorBody errCode text) 0 = .ret errCode := readU16_append [] _ errCode rfl
  have h2 : readU16 (errorBody errCode text) 2 = .ret (UInt16.ofNat text.length) :=
    readU16_append (writeU16 errCode) text _ (BigEndian.toBytes_length ..).symm
  have hdrop : (errorBody errCode text).drop 4 = text := by
    rw [errorBody, ← List.append_assoc, List.drop_left' (by simp [writeU16])]
  have hprint : printText text text.length = .ret text := by
    unfold printText
    rw [if_pos (Or.inl (le_refl _)), List.take_length, cString_of_no_nul hnul]
    rfl
  have hstream' : stream <+: errorBody errCode text ++ [] := by rwa [List.append_nil]
  unfold Tells printSimpleResult
  rw [hop, if_neg (by decide), if_pos rfl]
  apply always_malloc_iff.mpr
  refine ⟨?_, Or.inr (fails_complaint _)⟩
  dsimp only
  rw [if_pos rfl]
  refine always_payload_prefix hlen.symm hstream' (fun left => ?_) fun rest _ => ?_
  · exact Or.inr (fails_complaint _)
  · dsimp only
    rw [h0, Program.ret_bind, h2, Program.ret_bind, hdrop, hnat, hprint, Program.ret_bind]
    exact Or.inl rfl

/-- The messages that every command may be answered with, and their texts. -/
def Simple : Message → Prop
  | .ok _ => True
  | .metrics _ _ _ _ => True
  | .error _ text => text.length < 65536 ∧ 0 ∉ text
  | _ => False

theorem simple_tells {msg : Message} (hmsg : Simple msg) (hstream : stream <+: msg.body) :
    Tells out msg (printSimpleResult fd
      (responseHeader msg.opcode (UInt32.ofNat msg.body.length) msg.elapsedUs)) stream := by
  cases msg with
  | ok us => exact ok_tells us
  | metrics us networkUs writeUs syncUs => exact metrics_tells us networkUs writeUs syncUs hstream
  | error errCode text =>
    refine error_tells errCode rfl (UInt32.toNat_ofNat_of_lt' ?_) hmsg.1 hmsg.2 hstream
    change (errorBody errCode text).length < 2 ^ 32
    rw [errorBody_length]
    have htext := hmsg.1
    omega
  | listing us entries => exact hmsg.elim
  | file us content => exact hmsg.elim

theorem readSimpleResult_tells {msg : Message} (hmsg : Simple msg)
    (hstream : stream <+: frame msg.opcode msg.elapsedUs msg.body) :
    Tells out msg (readSimpleResult fd) stream :=
  always_header_prefix rfl rfl hstream (fun text _ => Or.inr (fails_complaint text))
    fun _ hrest => simple_tells hmsg hrest

theorem readListing_tells (us : UInt64) {entries : List Dirent} (henc : Encodable entries)
    (hnul : ∀ e ∈ entries, 0 ∉ e.name)
    (hstream : stream <+: frame opRespListData us (listBody entries)) :
    Tells out (.listing us entries) (readListing fd) stream := by
  have hannounced : (UInt32.ofNat (listBody entries).length).toNat = (listBody entries).length :=
    UInt32.toNat_ofNat_of_lt' henc.total
  have hcount : (UInt32.ofNat entries.length).toNat = entries.length :=
    UInt32.toNat_ofNat_of_lt' henc.count_lt
  have hread : readU32 (listBody entries) 0 = .ret (UInt32.ofNat entries.length) :=
    readU32_append [] _ _ rfl
  have hopcode : (responseHeader opRespListData (UInt32.ofNat (listBody entries).length)
      us).opcode = opRespListData := rfl
  refine always_header_prefix rfl rfl hstream (fun text _ => Or.inr (fails_complaint text))
    fun rest hrest => ?_
  have hrest' : rest <+: listBody entries ++ [] := by rwa [List.append_nil]
  dsimp only
  rw [if_neg (not_not.mpr hopcode)]
  apply always_malloc_iff.mpr
  refine ⟨?_, Or.inr (fails_complaint _)⟩
  rw [if_pos rfl]
  refine always_payload_prefix hannounced.symm hrest' (fun left => ?_) fun rest _ => ?_
  · exact Or.inr (fails_complaint _)
  · dsimp only
    rw [hread, Program.ret_bind, hcount, listLines_eq henc hnul, Program.ret_bind]
    exact Or.inl rfl

theorem readDownload_simple {msg : Message} (hmsg : Simple msg)
    (hstream : stream <+: frame msg.opcode msg.elapsedUs msg.body) :
    Tells out msg (readDownload fd out) stream := by
  have hother : msg.opcode ≠ opRespFileData := by
    have hok : opRespOk ≠ opRespFileData := by decide
    have herr : opRespErr ≠ opRespFileData := by decide
    cases msg with
    | ok us => exact hok
    | metrics us networkUs writeUs syncUs => exact hok
    | error errCode text => exact herr
    | listing us entries => exact hmsg.elim
    | file us content => exact hmsg.elim
  refine always_header_prefix rfl rfl hstream (fun text _ => Or.inr (fails_complaint text))
    fun rest hrest => ?_
  dsimp only
  rw [if_pos (show (responseHeader msg.opcode _ _).opcode ≠ _ from hother)]
  exact simple_tells hmsg hrest

theorem readDownload_file (us : UInt64) {content : Bytes} (hsize : content.length < 2 ^ 63)
    (hstream : stream <+: frame opRespFileData us (fileBody content)) :
    Tells out (.file us content) (readDownload fd out) stream := by
  have hnat : (UInt64.ofNat content.length).toNat = content.length :=
    UInt64.toNat_ofNat_of_lt' (show content.length < 2 ^ 64 by omega)
  have h8 : (writeU64 (UInt64.ofNat content.length)).length = 8 := BigEndian.toBytes_length ..
  have hread : readU64 (writeU64 (UInt64.ofNat content.length)) 0 =
      .ret (UInt64.ofNat content.length) := by
    have hr := readU64_append [] [] (UInt64.ofNat content.length)
      (show (0 : UInt32).toNat = 0 from rfl)
    rwa [List.append_nil, List.nil_append] at hr
  have hopcode : (responseHeader opRespFileData (UInt32.ofNat (fileBody content).length)
      us).opcode = opRespFileData := rfl
  refine always_header_prefix rfl rfl hstream (fun text _ => Or.inr (fails_complaint text))
    fun rest hrest => ?_
  dsimp only
  rw [if_neg (not_not.mpr hopcode)]
  unfold saveDownload
  refine always_payload_prefix h8 hrest (fun left => ?_) fun rest hrest => ?_
  · exact Or.inr (fails_complaint _)
  dsimp only
  rw [hread, Program.ret_bind]
  refine (always_recvFileBody_iff fun left => ?_).mpr fun _ hle => ?_
  · exact Or.inr (fails_complaint _)
  have hall : rest.take (UInt64.ofNat content.length).toNat = content := by
    rw [hnat] at hle ⊢
    rw [hrest.eq_of_length_le hle, List.take_length]
  rw [hall]
  dsimp only
  cases hopens : out.opens with
  | false => exact Or.inr (fails_complaint _)
  | true => exact Or.inl rfl

end Answers

section Commands
variable {Q : Result → Bytes → Prop} {fd : ℕ} {stream name : Bytes}

theorem fails_silently : Fails ⟨1, [], none⟩ := ⟨rfl, rfl, nofun⟩

theorem always_namedRequest {opcode : UInt16} {bytes : Bytes} {extra : UInt32}
    {answered : Prog Result} (hbytes : bytes.length = extra.toNat) (hextra : extra.toNat ≤ 8)
    (hfail : ∀ r, Fails r → Q r stream) (h : Always Q answered stream) :
    Always Q (namedRequest fd opcode name bytes extra answered) stream := by
  have hname : (cutName name).length < 65536 := by
    rw [cutName_length]
    omega
  have hoffset := offset_toNat hname extra hextra
  have hfirst : (writeU16 (UInt16.ofNat (cutName name).length)).length = 2 :=
    BigEndian.toBytes_length ..
  unfold namedRequest
  dsimp only
  rw [take_nameLen, nameLen_eq]
  refine always_malloc_iff.mpr ⟨?_, hfail _ fails_silently⟩
  rw [if_neg (show ¬ (!true) = true from Bool.false_ne_true), store_of_le, Program.ret_bind,
    store_of_le, Program.ret_bind, store_of_le, Program.ret_bind]
  · refine (always_sendRequest_iff ?_ fun text => ?_).mpr h
    · rw [hoffset, List.length_append, List.length_append, List.length_append, List.length_nil,
        hfirst, hbytes]
    · exact hfail _ (fails_complaint text)
  · rw [hoffset, List.length_append, List.length_append, List.length_nil, hfirst, hbytes]
  · rw [hoffset, List.length_append, List.length_nil, hfirst]
    omega
  · rw [hoffset, List.length_nil, hfirst]
    omega

theorem always_doUpload {io : Input} {file : LocalFile}
    (hsize : 2 + (cutName name).length + 8 + file.content.length < 2 ^ 32)
    (hfail : ∀ r, Fails r → Q r stream) (h : Always Q (readSimpleResult fd) stream) :
    Always Q (doUpload fd io file name) stream := by
  have hname : (cutName name).length < 65536 := by
    rw [cutName_length]
    omega
  have hoffset := offset_toNat hname 8 (by decide)
  have hfirst : (writeU16 (UInt16.ofNat (cutName name).length)).length = 2 :=
    BigEndian.toBytes_length ..
  have hdeclared : (writeU64 (UInt64.ofNat file.content.length)).length = 8 :=
    BigEndian.toBytes_length ..
  have hnat : (2 + (UInt16.ofNat (cutName name).length).toUInt32 + 8 +
      UInt32.ofNat file.content.length).toNat =
        2 + (cutName name).length + 8 + file.content.length := by
    rw [UInt32.toNat_add, hoffset, UInt32.toNat_ofNat']
    simp only [UInt32.reduceToNat]
    omega
  have hread : (file.content.take io.delivered).length ≤ file.content.length :=
    List.length_take_le' ..
  unfold doUpload
  dsimp only
  rw [take_nameLen, nameLen_eq]
  cases io.opens with
  | false => exact hfail _ (fails_complaint _)
  | true =>
    cases io.tells with
    | false => exact hfail _ (fails_complaint _)
    | true =>
      refine always_malloc_iff.mpr ⟨?_, hfail _ fails_silently⟩
      rw [if_neg (show ¬ (!true) = true from Bool.false_ne_true), store_of_le, Program.ret_bind,
        store_of_le, Program.ret_bind, store_of_le, Program.ret_bind, store_of_le, Program.ret_bind]
      · by_cases hfull : (file.content.take io.delivered).length = file.content.length
        · rw [if_neg (not_not.mpr hfull)]
          refine (always_sendRequest_iff ?_ fun text => ?_).mpr h
          · rw [hnat, List.length_append, List.length_append, List.length_append,
              List.length_append, List.length_nil, hfirst, hdeclared, hfull]
          · exact hfail _ (fails_complaint text)
        · rw [if_pos hfull]
          exact hfail _ (fails_complaint _)
      · rw [hnat, List.length_append, List.length_append, List.length_append, List.length_nil,
          hfirst, hdeclared]
        omega
      · rw [hnat, List.length_append, List.length_append, List.length_nil, hfirst, hdeclared]
        omega
      · rw [hnat, List.length_append, List.length_nil, hfirst]
        omega
      · rw [hnat, List.length_nil, hfirst]
        omega

theorem always_doList (hfail : ∀ r, Fails r → Q r stream) (h : Always Q (readListing fd) stream) :
    Always Q (doList fd) stream := by
  unfold doList
  have hlen : (0 : UInt32).toNat ≤ ([] : Bytes).length := Nat.le_refl 0
  refine (always_sendRequest_iff hlen fun text => ?_).mpr h
  exact hfail _ (fails_complaint text)

theorem not_tooLong_list : ¬ TooLong .list := by simp [TooLong, nameOf, payloadOf]

theorem doList_writes (fd : ℕ) : Writes fd (ServedAs · .list) [] (doList fd) := by
  have hserved := servedAs_payloadOf not_tooLong_list
  exact writes_sendRequest (by decide) hserved (fun line => ⟨_, rfl⟩)
    (writes_readResponseHeader hserved)

theorem always_fails {α : Type} {Q : α → Bytes → Prop} {f : Except Line Header → Prog α}
    (hfail : ∀ text left, Always Q (f (.error (.complaint text))) left) :
    Always Q (readResponseHeader fd >>= f) [] := by
  apply (always_readHeader_iff hfail).mpr
  intro resp hle
  exact absurd hle (by decide)

theorem readSimpleResult_fails : Always (fun r _ => Fails r) (readSimpleResult fd) [] :=
  always_fails fun text _ => fails_complaint text

theorem readListing_fails : Always (fun r _ => Fails r) (readListing fd) [] :=
  always_fails fun text _ => fails_complaint text

theorem readDownload_fails {out : Output} : Always (fun r _ => Fails r) (readDownload fd out) [] :=
  always_fails fun text _ => fails_complaint text

end Commands

end NervFS.Dialogues
