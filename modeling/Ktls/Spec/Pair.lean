import Ktls.Spec.Session

/-! Two exchanges of one connection, joined by two in-order byte channels. -/

namespace Ktls

/-- The same connection seen from one side. -/
def Tls.side (T : Tls) (server : Bool) : Tls := { T with server := server }

/-- The two sides, the server at `true`, and the bytes on their way to each: taken from
the other side and not fed yet. -/
structure Pair where
  session : Bool → Session
  coming : Bool → Bytes := fun _ => []

namespace Pair

section

variable (K : Kdf) (T : Tls)

/-- One side makes a call. What it takes joins the bytes on their way to the other
side, what it is fed leaves those on their way to it. -/
def after (P : Pair) (call : Bool × Op) : Pair where
  session := Function.update P.session call.1 ((P.session call.1).after K call.2)
  coming side :=
    let S := P.session call.1
    let S' := S.after K call.2
    if side = call.1 then (P.coming side).drop (S'.fed.length - S.fed.length)
    else P.coming side ++ S'.taken.drop S.taken.length

/-- What travels is what the peer wrote: a feed delivers what comes next, and each
record opened is the next one the peer wrote. No step fails. -/
def Genuine (P : Pair) (side : Bool) : Op → Prop
  | .feed bytes _ => bytes <+: P.coming side
  | .step a fate got _ =>
    ((ktlsExchangeStep K (P.session side).x a fate).1.isOk = true) ∧
      ((P.session side).x.done = false →
        (P.session side).inbox ++ got <+: (P.session (!side)).outKinds)
  | .backlog _ _ got _ => (P.session side).x.done = true →
      (P.session side).inbox ++ got <+: (P.session (!side)).outKinds
  | .take _ | .ask _ _ => True

instance (P : Pair) (side : Bool) (op : Op) : Decidable (P.Genuine K side op) :=
  match op with
  | .feed bytes _ => inferInstanceAs (Decidable (bytes <+: P.coming side))
  | .step _ _ _ _ => inferInstanceAs (Decidable (_ ∧ (_ → _)))
  | .backlog _ _ _ _ => inferInstanceAs (Decidable (_ → _))
  | .take _ | .ask _ _ => .isTrue trivial

/-- A call OpenSSL allows, on genuine bytes, in a direction of at most 64 records. -/
def permits (P : Pair) (call : Bool × Op) : Prop :=
  (P.session call.1).permits (T.side call.1) call.2 ∧ P.Genuine K call.1 call.2 ∧
    ((P.session call.1).after K call.2).outbox.length ≤ 64

instance (P : Pair) (call : Bool × Op) : Decidable (P.permits K T call) :=
  inferInstanceAs (Decidable (_ ∧ _ ∧ _))

/-- Every interleaving of calls on the two sides. -/
def machine : Machine Pair (Bool × Op) where
  permits := permits K T
  next := after K

instance (P : Pair) (call : Bool × Op) : Decidable ((machine K T).permits P call) :=
  inferInstanceAs (Decidable (P.permits K T call))

end

def opened (T : Tls) : Pair where
  session side := Session.opened (T.side side)

end Pair

end Ktls
