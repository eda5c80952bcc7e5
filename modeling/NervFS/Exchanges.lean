import NervFS.GoneClients

/-!
A request on its connection. The server reads it out of the bytes that a client has written
and puts the frame of its answer on the connection; for the files this is one operation on
the map. This is the server of one worker, which takes the requests one after another. An
operation leaves the contents and the mode of a file alone unless it is one that changes
them.
-/
namespace NervFS.Exchanges

open Programs Calls Protocol FileOps Handlers Requests Operations Kernel Responses Listings
open World Replies Workers Serving Catalog GoneClients

/-- The request that the server reads out of what was written. -/
structure Receives (written : Bytes) (r : Request) : Prop where
  whole : nervfsHeaderSize ≤ written.length
  header : Protocol.parseHeader (written.take nervfsHeaderSize) = some r.header
  payload : r.payload = written.drop nervfsHeaderSize

/-- The server takes what was written for a request, and answers it before it takes another.
No call of its own fails or is cut short but the writes to the client, which may have gone,
and a listing fits its frame; `bytes` is the answer in full. -/
def Handles (host : Host) (s : Server) (written bytes : Bytes) (s' : Server) : Prop :=
  ∃ r sends t sent, Receives written r ∧ Ordinary s r ∧ respond host s r = some (t, bytes) ∧
    respond host s (takenAs sends r) = some (s', sent)

/-- The message can be told from its frame. -/
structure Readable (msg : Message) : Prop where
  short : msg.body.length < 2 ^ 32
  names : ∀ us entries, msg = .listing us entries → Encodable entries

section Answers
variable {host : Host} {s s' : Server} {m : FileMap} {op : Operation} {written bytes : Bytes}

theorem operationOf_of_receives {r : Request} (h : Receives written r)
    (hserved : ServedAs written op) : operationOf r = .ok op := by
  obtain ⟨header, hparse, -, -, hdecode, -⟩ := hserved
  have hheader := h.header
  rw [hparse] at hheader
  cases hheader
  unfold operationOf
  rw [h.payload]
  exact hdecode

theorem Handles.written_ne_nil (h : Handles host s written bytes s') : written ≠ [] := by
  obtain ⟨r, -, -, -, hreceives, -⟩ := h
  rintro rfl
  exact absurd hreceives.whole (by decide)

theorem Handles.written_eq {frame : Bytes} (hframe : ServedAs frame op)
    (hpart : written <+: frame) (h : Handles host s written bytes s') : written = frame := by
  obtain ⟨header, hparse, -, hlen, -⟩ := hframe
  obtain ⟨r, -, -, -, hreceives, hordinary, -⟩ := h
  have hwhole := hreceives.whole
  have hheader := hreceives.header
  have hcomplete := hordinary.complete
  obtain ⟨rest, rfl⟩ := hpart
  rw [List.take_append_of_le_length hwhole, hheader] at hparse
  cases hparse
  unfold Request.Complete at hcomplete
  rw [hreceives.payload, hlen, List.drop_append_of_le_length hwhole,
    List.length_append] at hcomplete
  rw [List.eq_nil_of_length_eq_zero (show rest.length = 0 by omega), List.append_nil]

/-- What the entries of a listing must fulfil holds for those of a sound directory. -/
theorem encodable_of_performs {m' : FileMap} {us : UInt64} {entries : List Dirent}
    (hinv : Inv host s) (habs : Abstracts (node s.files) m)
    (hp : Performs host m op m' (.listing us entries))
    (hlen : (listBody entries).length < 2 ^ 32) : Encodable entries := by
  cases hp with
  | listed us hlists =>
    refine ⟨fun e he => ?_, hlen⟩
    obtain ⟨f, hf, -⟩ := (hlists.mem_iff e).mp he
    exact (hinv.sound e.name f ((habs e.name).symm.trans hf)).valid.short

/-- The operation that was asked for is performed, and its answer put on the connection. -/
theorem Handles.performs (hperm : ∀ kind mode, host.permits kind mode = true) (hinv : Inv host s)
    (habs : Abstracts (node s.files) m) (hserved : ServedAs written op)
    (h : Handles host s written bytes s') : ∃ msg m', Performs host m op m' msg ∧ Readable msg ∧
      bytes = frame msg.opcode msg.elapsedUs msg.body ∧ Abstracts (node s'.files) m' ∧
      Inv host s' := by
  obtain ⟨r, sends, t, sent, hreceives, hordinary, hrespond, hleft⟩ := h
  have hoperation := operationOf_of_receives hreceives hserved
  have hstep : ServerStep host s (r, bytes) t := hrespond
  obtain ⟨-, msg, hanswered, hbytes, hlen⟩ := serverStep_ends hinv hordinary hstep
  rw [hoperation] at hanswered
  obtain ⟨m', hperforms, habs'⟩ := performs_of_answered hperm hanswered habs
  obtain ⟨s₁, sent₁, hleft₁, halike⟩ := respond_takenAs sends hrespond
  cases hleft₁.symm.trans hleft
  have hfiles : Abstracts (node s'.files) m' := by
    rw [halike.files]
    exact habs'
  refine ⟨msg, m', hperforms, ⟨hlen, ?_⟩, hbytes, hfiles,
    halike.inv (inv_step hinv hordinary hstep)⟩
  rintro us entries rfl
  exact encodable_of_performs hinv habs hperforms hlen

end Answers

def ChangesMode (name : Bytes) : Operation → Prop
  | .delete n => n = name
  | .chmod n _ => n = name
  | _ => False

def ChangesContents (name : Bytes) : Operation → Prop
  | .delete n => n = name
  | .upload n _ => n = name
  | _ => False

section Frames
variable {host : Host} {m m' : FileMap} {op : Operation} {msg : Message} {name : Bytes} {f : File}

/-- A file is there after another one, or a new version of it, was put into the map. -/
theorem lookup_insert_keeps {P : File → Prop} (hf : m.lookup name = some f) (hP : P f)
    {other : Bytes} {g : File} (hg : name = other → P g) :
    ∃ g', (m.insert other g).lookup name = some g' ∧ P g' := by
  by_cases hn : name = other
  · subst hn
    exact ⟨g, Finmap.lookup_insert m, hg rfl⟩
  · exact ⟨f, by rw [Finmap.lookup_insert_of_ne m hn, hf], hP⟩

/-- An operation that does not change the contents of a file keeps them. -/
theorem performs_contents (hp : Performs host m op m' msg) (hop : ¬ ChangesContents name op)
    (hf : m.lookup name = some f) : ∃ g, m'.lookup name = some g ∧ g.bytes = f.bytes := by
  cases hp with
  | created us networkUs writeUs syncUs hname hnone =>
    exact lookup_insert_keeps (P := (File.bytes · = f.bytes)) hf rfl fun hn => absurd hn.symm hop
  | replaced us networkUs writeUs syncUs hname hsome =>
    exact lookup_insert_keeps (P := (File.bytes · = f.bytes)) hf rfl fun hn => absurd hn.symm hop
  | deleted us hname hsome => exact ⟨f, by rw [Finmap.lookup_erase_ne (Ne.symm hop), hf], rfl⟩
  | changed us hname hsome =>
    refine lookup_insert_keeps (P := (File.bytes · = f.bytes)) hf rfl ?_
    rintro rfl
    rw [hf] at hsome
    cases hsome
    rfl
  | _ => exact ⟨f, hf, rfl⟩

theorem performs_mode (hp : Performs host m op m' msg) (hop : ¬ ChangesMode name op)
    (hf : m.lookup name = some f) : ∃ g, m'.lookup name = some g ∧ g.mode = f.mode := by
  cases hp with
  | created us networkUs writeUs syncUs hname hnone =>
    refine lookup_insert_keeps (P := (File.mode · = f.mode)) hf rfl ?_
    rintro rfl
    rw [hf] at hnone
    cases hnone
  | replaced us networkUs writeUs syncUs hname hsome =>
    refine lookup_insert_keeps (P := (File.mode · = f.mode)) hf rfl ?_
    rintro rfl
    rw [hf] at hsome
    cases hsome
    rfl
  | deleted us hname hsome => exact ⟨f, by rw [Finmap.lookup_erase_ne (Ne.symm hop), hf], rfl⟩
  | changed us hname hsome =>
    exact lookup_insert_keeps (P := (File.mode · = f.mode)) hf rfl fun hn => absurd hn.symm hop
  | _ => exact ⟨f, hf, rfl⟩

end Frames

end NervFS.Exchanges
