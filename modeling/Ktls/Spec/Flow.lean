import Ktls.Spec.KeySchedule
import Ktls.Spec.Release

/-! The bytes that pass through an exchange, counted beside it. A flow is an exchange with
the history of its two BIOs: every byte that was placed in the input BIO, every byte that
was removed from the output BIO, how many the SSL has read, and where each direction stood
when the exchange was done. The history is for stating and proving only. -/

namespace Ktls

structure Flow where
  x : KtlsExchange
  placed : Bytes := []
  removed : Bytes := []
  read : ℕ := 0
  boundary : KtlsDirection → ℕ := fun _ => 0

namespace Flow

/-- A client finishes by writing its Finished, so what it still owes is in front of the
boundary; a server's Finished has left before. -/
def boundaryAt (server : Bool) (removed : Bytes) (owed : Bytes) (read : ℕ) : KtlsDirection → ℕ
  | .tx => if server then removed.length else removed.length + owed.length
  | .rx => read

/-- The history, once a call has left the exchange as `x`. -/
def seen (F : Flow) (x : KtlsExchange) : Call → Flow
  | .feed _ _ => { F with x := x, placed := F.placed ++ x.unread.drop F.x.unread.length }
  | .take _ =>
    { F with x := x, removed := F.removed ++ F.x.owed.take (F.x.owed.length - x.owed.length) }
  | .step _ _ =>
    let read := F.read + (F.x.unread.length - x.unread.length)
    { F with
      x := x
      read := read
      boundary := if F.x.done = false ∧ x.done = true then boundaryAt x.server F.removed x.owed read
        else F.boundary }
  | .backlog _ => { F with x := x, read := F.read + (F.x.unread.length - x.unread.length) }
  | .ask _ _ | .nextKey _ _ | .release => { F with x := x }

variable (K : Kdf)

def after (F : Flow) (call : Call) : Flow := F.seen (call.after K F.x) call

/-- Any call but the release. -/
def permits (F : Flow) (call : Call) : Prop :=
  call.Takes F.x ∧
    match call with
    | .release => False
    | .feed _ _ | .take _ | .step _ _ | .backlog _ | .ask _ _ | .nextKey _ _ => True

instance (F : Flow) (call : Call) : Decidable (F.permits call) :=
  match call with
  | .release => .isFalse fun h => h.2
  | .feed _ _ | .take _ | .ask _ _ | .nextKey _ _ => .isTrue ⟨trivial, trivial⟩
  | .step a fate => decidable_of_iff ((Call.step a fate).Takes F.x) (and_iff_left trivial).symm
  | .backlog a => decidable_of_iff ((Call.backlog a).Takes F.x) (and_iff_left trivial).symm

def machine : Machine Flow Call where
  permits := permits
  next := after K

instance (F : Flow) (call : Call) : Decidable ((machine K).permits F call) :=
  inferInstanceAs (Decidable (F.permits call))

def opened (role : KtlsRole) : Flow where
  x := ktlsExchangeOpen role

/-- The counters of the exchange are those of the two BIOs. -/
structure Accounts (F : Flow) : Prop where
  fed : F.x.rxFed = F.placed.length
  rx : F.x.rx.offset = F.placed.length
  tx : F.x.tx.offset = F.removed.length
  pending : F.x.unread.length ≤ F.x.rxFed
  read : F.x.rxFed - F.x.unread.length = F.read

/-- What a call promises: a feed that succeeds has delivered every byte and one that fails
has changed nothing, and a take that asks for something and comes back empty found nothing
owed. -/
def Keeps (F : Flow) : Call → Prop
  | .feed bytes written =>
    ((ktlsExchangeFeed F.x bytes written).1 = .ok () →
      (F.after K (.feed bytes written)).placed = F.placed ++ bytes) ∧
    ∀ e, (ktlsExchangeFeed F.x bytes written).1 = .error e →
      (F.after K (.feed bytes written)).x = F.x
  | .take cap => 0 < cap → (ktlsExchangeTake F.x cap).1 = .ok [] → F.x.owed = []
  | .step _ _ | .backlog _ | .ask _ _ | .nextKey _ _ | .release => True

/-- A feed whose length fits an `int`, or that `BIO_write` does not answer with the `int` it
was asked for. -/
def FeedFits (F : Flow) : Call → Prop
  | .feed bytes written => bytes.length < 2 ^ 31 ∨
    (bioWrite F.x.unread bytes (cInt bytes.length) written).1 ≠ cInt bytes.length
  | .take _ | .step _ _ | .backlog _ | .ask _ _ | .nextKey _ _ | .release => True

/-- A take whose capacity is still positive as an `int`, or that asks for nothing or is owed
nothing. -/
def TakeFits (F : Flow) : Call → Prop
  | .take cap => 0 < cap → 0 < cInt cap ∨ F.x.owed = []
  | .feed _ _ | .step _ _ | .backlog _ | .ask _ _ | .nextKey _ _ | .release => True

instance (F : Flow) (call : Call) : Decidable (F.FeedFits call) :=
  match call with
  | .feed bytes _ => inferInstanceAs (Decidable (bytes.length < 2 ^ 31 ∨ _))
  | .take _ | .step _ _ | .backlog _ | .ask _ _ | .nextKey _ _ | .release => .isTrue trivial

instance (F : Flow) (call : Call) : Decidable (F.TakeFits call) :=
  match call with
  | .take cap => inferInstanceAs (Decidable (0 < cap → 0 < cInt cap ∨ _))
  | .feed _ _ | .step _ _ | .backlog _ | .ask _ _ | .nextKey _ _ | .release => .isTrue trivial

variable (F : Flow)

/-- The bytes of a direction: what was taken, and what the SSL has read. -/
def stream : KtlsDirection → Bytes
  | .tx => F.removed
  | .rx => F.placed.take F.read

/-- Where the records of a direction end. -/
def ends (dir : KtlsDirection) : List ℕ := Framing.cuts 0 (tlsRecord.frames (F.stream dir))

/-- The records behind the boundary. -/
def since (dir : KtlsDirection) : ℕ := (F.ends dir).countP fun e => F.boundary dir < e

end Flow

end Ktls
