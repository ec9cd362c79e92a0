import Ktls.Spec.Offload
import Ktls.Spec.Session

/-! The loop of the README that makes the handshake over a socket and hands the socket over.
What it keeps are the exchange, the socket and what it has written there; the SSL's history
stands beside the exchange. -/

namespace Ktls

/-- Where `serve` is. `take` is the loop that sends what is owed behind a step that answered
this. -/
inductive ServePc
  | step | take (step : KtlsStep) | read | backlog | offload | served | failed
  deriving DecidableEq

structure Serve where
  pc : ServePc := .step
  session : Session
  sock : TcpSocket := {}
  written : Bytes := []

/-- One call, with the answers of OpenSSL and of the socket inside it. -/
inductive ServeOp
  | step (a : HandshakeAnswer) (fate : DeriveFate) (got : List RecordKind) (wrote : List Wrote)
  | take (sends : Bool)
  | read (bytes : Bytes) (written : ℤ)
  | backlog (a : ReadAnswer) (got : List RecordKind) (wrote : List Wrote)
  | offload (np : NullPending) (fate : OffloadFate)

namespace Serve

variable (K : Kdf) (T : Tls)

def bufferSize : ℕ := 16384

/-- Nothing is owed any more. -/
def afterTake : ServePc → ServePc
  | .take .done => .backlog
  | .take .reading => .read
  | .take .writing => .step
  | pc => pc

/-- `again` is how the Ruby binding and the `drain` of the handover example read the backlog,
until it answers nothing; the README's C calls it once. -/
def after (again : Bool) (V : Serve) : ServeOp → Serve
  | .step a fate got wrote =>
    { V with
      session := V.session.after K (.step a fate got wrote)
      pc := match (ktlsExchangeStep K V.session.x a fate).1 with
        | .error _ => .failed
        | .ok step => .take step }
  | .take sends =>
    let V' := { V with session := V.session.after K (.take bufferSize) }
    match (ktlsExchangeTake V.session.x bufferSize).1.toOption.getD [] with
    | [] => { V' with pc := afterTake V.pc }
    | out => if sends then { V' with written := V.written ++ out } else { V' with pc := .failed }
  | .read bytes written =>
    if bytes = [] then { V with pc := .failed }
    else
      { V with
        session := V.session.after K (.feed bytes written)
        pc := match (ktlsExchangeFeed V.session.x bytes written).1 with
          | .error _ => .failed
          | .ok () => .step }
  | .backlog a got wrote =>
    { V with
      session := V.session.after K (.backlog bufferSize a got wrote)
      pc := match (ktlsExchangeBacklog V.session.x a).1 with
        | .ok (_ :: _) => if again then .backlog else .offload
        | .ok [] | .error _ => .offload }
  | .offload np fate =>
    let r := ktlsOffload np V.session.x V.sock fate
    { V with
      session := { V.session with x := r.2.1 }
      sock := r.2.2
      pc := match r.1 with
        | .error _ => .failed
        | .ok () => .served }

/-- The calls come in the order of the program; a `read` fills at most the buffer, and a
`write` that does not fail has sent everything. -/
def permits (V : Serve) : ServeOp → Prop
  | .step a fate got wrote => V.pc = .step ∧ V.session.permits T (.step a fate got wrote)
  | .take _ => ∃ step, V.pc = .take step
  | .read bytes _ => V.pc = .read ∧ bytes.length ≤ bufferSize
  | .backlog a got wrote =>
    V.pc = .backlog ∧ V.session.permits T (.backlog bufferSize a got wrote)
  | .offload _ _ => V.pc = .offload

instance (pc : ServePc) : Decidable (∃ step, pc = .take step) :=
  match pc with
  | .take step => .isTrue ⟨step, rfl⟩
  | .step | .read | .backlog | .offload | .served | .failed => .isFalse (by simp)

instance (V : Serve) (op : ServeOp) : Decidable (V.permits T op) :=
  match op with
  | .step _ _ _ _ => inferInstanceAs (Decidable (_ ∧ _))
  | .take _ => inferInstanceAs (Decidable (∃ step, V.pc = .take step))
  | .read _ _ => inferInstanceAs (Decidable (_ ∧ _))
  | .backlog _ _ _ => inferInstanceAs (Decidable (_ ∧ _))
  | .offload _ _ => inferInstanceAs (Decidable (V.pc = .offload))

def machine (again : Bool) : Machine Serve ServeOp where
  permits := permits T
  next := after K again

instance (again : Bool) (V : Serve) (op : ServeOp) :
    Decidable ((machine K T again).permits V op) :=
  inferInstanceAs (Decidable (V.permits T op))

def opened : Serve where
  session := Session.opened T

end Serve

end Ktls
