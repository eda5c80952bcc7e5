import NervFS.Catalog
import NervFS.Signals

/-!
A client that has gone. The handlers look at no result of a socket write, so a request leaves
the same files and the same locks whether its client takes all of the response, a part of it
or nothing.
-/
namespace NervFS.GoneClients

open Programs KeyedStore Calls Protocol FileOps Handlers Requests Kernel World Workers Catalog
open ResponseShapes Signals

/-- The thread with another socket, which has taken `sent` so far and goes on with `sends`. -/
def onSocket (sends : List Transfer) (sent : Bytes) (l : Local) : Local :=
  { l with outcomes := { l.outcomes with sends := sends }, sent := sent }

/-- The request of a client that takes its response in this way. -/
def takenAs (sends : List Transfer) (r : Request) : Request :=
  { r with outcomes := { r.outcomes with sends := sends } }

/-- The files and the locks of the servers are the same. -/
structure Alike (s t : Server) : Prop where
  files : node t.files = node s.files
  held : t.held = s.held

theorem alike_refl (s : Server) : Alike s s := ⟨rfl, rfl⟩

theorem Alike.inv {host : Host} {s t : Server} (h : Alike s t) (hi : Inv host s) : Inv host t := by
  refine ⟨h.held.trans hi.held, ?_⟩
  rw [h.files]
  exact hi.sound

section Calls
variable {host : Host} (sends : List Transfer) (sent : Bytes) {l : Local}

theorem own_onSocket {e : Call} (he : ∀ fd buf, e ≠ .sockWrite fd buf) :
    own e (onSocket sends sent l) = ((own e l).1, onSocket sends sent (own e l).2) := by
  cases e with
  | sockRead fd len =>
    simp only [own, recvInto, onSocket]
    split <;> rfl
  | sockWrite fd buf => exact absurd rfl (he fd buf)
  | _ => rfl

theorem touch_onSocket {e : Call} (he : ∀ fd buf, e ≠ .sockWrite fd buf) (v : Node) :
    touch host e v (onSocket sends sent l) = ((touch host e v l).1, (touch host e v l).2.1,
      onSocket sends sent (touch host e v l).2.2) := by
  have houtcomes : (onSocket sends sent l).outcomes = { l.outcomes with sends := sends } := rfl
  cases e with
  | openWrite path =>
    simp only [touch]
    cases resolve host.root path with
    | none => rfl
    | some name =>
      simp only [openWriteNode, houtcomes]
      split_ifs
      · rfl
      · cases v.current with
        | none => rfl
        | some f =>
          dsimp only
          split_ifs <;> rfl
  | openRead path =>
    simp only [touch]
    cases resolve host.root path with
    | none => rfl
    | some name =>
      simp only [openReadNode, houtcomes]
      cases v.current with
      | none => rfl
      | some f =>
        dsimp only
        split_ifs <;> rfl
  | write fd data =>
    simp only [touch, writeNode, houtcomes]
    split <;> rfl
  | unlink path =>
    simp only [touch, unlinkNode, houtcomes]
    cases v.current with
    | none => rfl
    | some f =>
      dsimp only
      split_ifs <;> rfl
  | chmod path mode =>
    simp only [touch, chmodNode, houtcomes]
    cases v.current with
    | none => rfl
    | some f =>
      dsimp only
      split_ifs <;> rfl
  | sockRead fd len => simp only [touch, own_onSocket sends sent he]
  | sockWrite fd buf => exact absurd rfl (he fd buf)
  | _ => rfl

/-- A call other than a socket write does not depend on the socket that a write would go to. -/
theorem exec_onSocket {e : Call} (he : ∀ fd buf, e ≠ .sockWrite fd buf) {s s' : Server}
    {l' : Local} {r : Reply e} (h : exec host e (s, l) = some (r, s', l')) :
    exec host e (s, onSocket sends sent l) = some (r, s', onSocket sends sent l') := by
  have hown := own_onSocket sends sent (l := l) he
  cases hr : role host e with
  | own =>
    rw [exec_own hr] at h ⊢
    cases h
    rw [hown]
  | access name m =>
    rw [exec_access hr] at h ⊢
    cases h
    rw [touch_onSocket sends sent he]
  | acquire name m =>
    simp only [exec, hr] at h ⊢
    rw [hown]
    split at h
    · next hgrants =>
      cases h
      exact if_pos hgrants
    · cases h
  | release name m =>
    rw [exec_release hr] at h ⊢
    cases h
    rw [hown]
  | other =>
    simp only [exec, hr] at h ⊢
    cases e with
    | opendir =>
      cases h
      rfl
    | _ => cases h

end Calls

section Runs
variable {host : Host} {s s' t : Server} {l l' m : Local}

theorem Alike.after (h : Alike s t) (e : Call) : Alike (closed s e) (closed t e) := by
  refine ⟨?_, ?_⟩
  · rw [closed_files, closed_files, h.files]
  · cases e with
    | lockRelease kind name => exact congrArg (List.erase · _) h.held
    | _ => exact h.held

/-- What is left of a handler does the same on any socket. -/
theorem tail_alike {p : Prog Unit} (hp : Tail p) (h : Alike s t)
    (hrun : p.run (exec host) (s, l) = some ((), s', l')) :
    ∃ t' m', p.run (exec host) (t, m) = some ((), t', m') ∧ Alike s' t' := by
  induction hp generalizing s t l m with
  | ret =>
    cases hrun
    exact ⟨t, m, rfl, h⟩
  | stuck => cases hrun
  | @call e k he _ ih =>
    rw [Program.run_call_of (exec_closing host he s l), closing_reply he l m] at hrun
    rw [Program.run_call_of (exec_closing host he t m)]
    exact ih _ (h.after e) hrun
  | @send fd buf p _ ih =>
    obtain ⟨r, s₁, l₁, bytes, hsent, hsends, -⟩ := sendFull_runs host fd buf s l
    obtain ⟨r₂, t₁, m₁, bytes₂, hsent₂, hsends₂, -⟩ := sendFull_runs host fd buf t m
    rw [Program.run_bind, hsent] at hrun
    rw [Program.run_bind, hsent₂]
    refine ih ⟨?_, ?_⟩ hrun
    · rw [hsends.files, hsends₂.files, h.files]
    · rw [hsends.held, hsends₂.held, h.held]

/-- A handler leaves the same files and locks on any socket. -/
theorem shaped_alike {H : UInt16 → UInt32 → Prop} {p : Prog Unit} (sends : List Transfer)
    (sent : Bytes) (hp : Shaped H p) (h : p.run (exec host) (s, l) = some ((), s', l')) :
    ∃ t m, p.run (exec host) (s, onSocket sends sent l) = some ((), t, m) ∧ Alike s' t := by
  induction hp generalizing s l with
  | stuck => cases h
  | call he _ ih =>
    obtain ⟨r, q, hexec, hk⟩ := Program.run_call_some h
    rw [Program.run_call_of (exec_onSocket sends sent (prompt_not_write he) hexec)]
    exact ih r hk
  | malloc _ hnull ih =>
    obtain ⟨r, q, hexec, hk⟩ := Program.run_call_some h
    rw [Program.run_call_of (exec_onSocket sends sent (fun _ _ h => by cases h) hexec)]
    cases r with
    | true => exact ih hk
    | false => exact tail_alike hnull (alike_refl _) hk
  | record hk _ ih =>
    obtain ⟨r, q, hexec, hrest⟩ := Program.run_call_some h
    rw [overlooked hk] at hrest
    rw [Program.run_call_of (exec_onSocket sends sent (fun _ _ h => by cases h) hexec)]
    rw [overlooked hk]
    exact ih hrest
  | lock _ _ _ ih ih' =>
    obtain ⟨r, q, hexec, hk⟩ := Program.run_call_some h
    rw [Program.run_call_of (exec_onSocket sends sent (fun _ _ h => by cases h) hexec)]
    cases r with
    | true => exact ih' hk
    | false => exact ih hk
  | @send H fd opcode len us p _ htail =>
    exact tail_alike (.send htail) (alike_refl s) h

/-- What the client takes of its response changes nothing about the files. -/
theorem respond_takenAs (sends : List Transfer) {r : Request} {bytes : Bytes}
    (h : respond host s r = some (s', bytes)) :
    ∃ t sent, respond host s (takenAs sends r) = some (t, sent) ∧ Alike s' t := by
  obtain ⟨⟨_, s₁, l₁⟩, hrun, hends⟩ := Option.map_eq_some_iff.mp h
  cases hends
  have hshaped :=
    dispatchRequestTimed_shaped any_header r.clientFd host.root r.header r.payload r.netStart
  obtain ⟨t, m, hrun', halike⟩ := shaped_alike sends [] hshaped hrun
  refine ⟨t, m.sent, ?_, halike⟩
  unfold respond
  rw [show (takenAs sends r).loc = onSocket sends [] r.loc from rfl]
  exact congrArg (Option.map _) hrun'

end Runs

end NervFS.GoneClients
