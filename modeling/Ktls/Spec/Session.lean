import Ktls.Lib.Machine
import Ktls.Model.Exchange

/-! What the results about an exchange assume of the OpenSSL behind it, stated on
the records it opens and writes. A session is an exchange with the history of its
SSL beside it: every byte the input BIO accepted, what the SSL made of each record
it opened, every record it wrote. The history is for stating and proving only; the
code never sees it. -/

namespace Ktls

/-- What the SSL finds in a record. `bad` is one it refuses: a record that does not
authenticate, or a malformed one. -/
inductive RecordKind
  | handshake
  | finished
  | ticket
  | data
  | keyUpdate (requested : Bool)
  | alert
  | bad
  deriving DecidableEq

/-- A record that is counted under the key it came with, which stays. -/
def RecordKind.Plain : RecordKind → Prop
  | .ticket | .data | .alert => True
  | .handshake | .finished | .keyUpdate _ | .bad => False

instance (k : RecordKind) : Decidable k.Plain :=
  match k with
  | .ticket | .data | .alert => .isTrue trivial
  | .handshake | .finished | .keyUpdate _ | .bad => .isFalse id

/-- A record the SSL wrote. -/
structure Wrote where
  kind : RecordKind
  bytes : Bytes
  deriving DecidableEq

/-- Where a direction of the record layer stands: how often its key was replaced,
and the number the next record gets. -/
@[ext]
structure Standing where
  generation : ℕ := 0
  sequence : ℕ := 0
  deriving DecidableEq

/-- A Finished puts its direction on the first application key; a KeyUpdate is the
last record of its key. -/
def Standing.advance (s : Standing) : RecordKind → Standing
  | .handshake | .bad => s
  | .finished => {}
  | .ticket | .data | .alert => { s with sequence := s.sequence + 1 }
  | .keyUpdate _ => { generation := s.generation + 1, sequence := 0 }

def standing (ks : List RecordKind) : Standing := ks.foldl Standing.advance {}

/-- How many records a direction carries up to and including its Finished. -/
def flight (ks : List RecordKind) : ℕ := (ks.takeWhile (· ≠ .finished)).length + 1

/-- A direction that has just carried its Finished, and only once. -/
def EndsFinished (ks : List RecordKind) : Prop := ∃ hs, ks = hs ++ [.finished] ∧ .finished ∉ hs

instance (ks : List RecordKind) : Decidable (EndsFinished ks) :=
  decidable_of_iff (ks.getLast? = some .finished ∧ .finished ∉ ks.dropLast) (by
    constructor
    · rintro ⟨hl, hd⟩
      obtain ⟨hs, rfl⟩ := List.getLast?_eq_some_iff.mp hl
      exact ⟨hs, rfl, by simpa using hd⟩
    · rintro ⟨hs, rfl, hn⟩
      simpa using hn)

/-- The records behind the Finished. -/
def behindFinished (ks : List RecordKind) : List RecordKind := ks.drop (flight ks)

def hexChar (n : ℕ) : UInt8 := UInt8.ofNat (if n < 10 then 48 + n else 87 + n)

def hexOf (b : Bytes) : Bytes :=
  b.flatMap fun c => [hexChar (c.toNat / 16), hexChar (c.toNat % 16)]

/-- The connection both sides agreed on: the two application traffic secrets, the
random their keylog lines carry and the suite's name; and which side this is. -/
structure Tls where
  server : Bool
  secret : Fin 2 → Bytes
  secret_fits : ∀ i, 0 < (secret i).length ∧ (secret i).length ≤ ktlsSecretMax
  random : Bytes
  random_no_space : space ∉ random
  suite : Bytes

/-- `<LABEL> <client_random> <secret>`. -/
def Tls.line (T : Tls) (which : Fin 2) : Bytes :=
  kLabel which ++ T.random ++ space :: hexOf (T.secret which)

structure Session where
  x : KtlsExchange
  fed : Bytes := []
  arrived : Bytes := []
  inbox : List RecordKind := []
  outbox : List Wrote := []
  taken : Bytes := []
  logged : List Bytes := []

namespace Session

variable (S : Session)

def unread : Bytes := (S.x.ssl.map Ssl.input).getD []
def owed : Bytes := (S.x.ssl.map Ssl.output).getD []

/-- How many bytes the SSL has moved out of its input BIO. -/
def read : ℕ := S.arrived.length - S.unread.length

/-- Everything the SSL has written. -/
def wire : Bytes := (S.outbox.map Wrote.bytes).flatten

def outKinds : List RecordKind := S.outbox.map Wrote.kind

/-- The records of a direction, as the SSL knows them. -/
def carried : KtlsDirection → List RecordKind
  | .tx => S.outKinds
  | .rx => S.inbox

/-- The SSL has opened the peer's Finished. -/
def Complete : Prop := RecordKind.finished ∈ S.inbox

instance : Decidable S.Complete := inferInstanceAs (Decidable (_ ∈ _))

/-- The input BIO is read one record at a time: `got` is what the SSL made of the
records whose last byte it moved out of the BIO in this call, and every record it
holds whole has been opened. The bytes of an unfinished one leave the BIO as well. -/
structure Reads (input : Bytes) (got : List RecordKind) : Prop where
  suffix : input <:+ S.unread
  opened : (tlsRecord.frames (S.arrived.take (S.arrived.length - input.length))).length =
    S.inbox.length + got.length

/-- The output BIO receives whole records. -/
structure Writes (output : Bytes) (wrote : List Wrote) : Prop where
  output_eq : output = S.owed ++ (wrote.map Wrote.bytes).flatten
  whole : ∀ r ∈ wrote, tlsRecord.IsFrame r.bytes

/-- `SSL_do_handshake` that cannot finish yet, or never will. -/
structure Waits (T : Tls) (a : HandshakeAnswer) (got : List RecordKind) (wrote : List Wrote) :
    Prop where
  fresh : ¬ S.Complete
  rc : a.rc ≠ 1
  reads : S.Reads a.input got
  writes : S.Writes a.output wrote
  not_finished : .finished ∉ got
  /-- A client finishes by writing its Finished. -/
  client : T.server = false → .finished ∉ wrote.map Wrote.kind

/-- The `SSL_do_handshake` that finishes: it opens the peer's Finished and no record
behind it. A client has then just written its own Finished; a server wrote its own
earlier and answers with records under the application key. -/
structure Completes (T : Tls) (a : HandshakeAnswer) (got : List RecordKind)
    (wrote : List Wrote) : Prop where
  fresh : ¬ S.Complete
  rc : a.rc = 1
  suite : a.suite = some T.suite
  reads : S.Reads a.input got
  writes : S.Writes a.output wrote
  got_ends : EndsFinished got
  client : T.server = false → EndsFinished (S.outKinds ++ wrote.map Wrote.kind)
  server : T.server = true →
    EndsFinished S.outKinds ∧ ∀ r ∈ wrote, r.kind = .ticket ∨ r.kind = .data
  logs : ∀ i, (S.logged ++ a.keylog).filter (kLabel i).isPrefixOf = [T.line i]

/-- `SSL_do_handshake` after it has finished: it says so again and does nothing. -/
structure Again (T : Tls) (a : HandshakeAnswer) (got : List RecordKind) (wrote : List Wrote) :
    Prop where
  complete : S.Complete
  rc : a.rc = 1
  suite : a.suite = some T.suite
  input : a.input = S.unread
  output : a.output = S.owed
  keylog : a.keylog = []
  got_nil : got = []
  wrote_nil : wrote = []

inductive Handshake (T : Tls) (a : HandshakeAnswer) (got : List RecordKind)
    (wrote : List Wrote) : Prop
  | waits (h : S.Waits T a got wrote)
  | completes (h : S.Completes T a got wrote)
  | again (h : S.Again T a got wrote)

/-- `SSL_read` once the handshake is complete: it opens records one after another, writes a
KeyUpdate only where one that asks for it has come in, at once or later, and reports a
record it refuses with an alert and no plaintext. It wants to read only when its BIO is
empty. -/
structure SslRead (cap : ℕ) (a : ReadAnswer) (got : List RecordKind) (wrote : List Wrote) :
    Prop where
  reads : S.Reads a.input got
  writes : S.Writes a.output wrote
  keylog : a.keylog = []
  fits : a.plain.length ≤ (cInt cap).toNat
  kinds_in : ∀ k ∈ got, k ≠ .handshake ∧ k ≠ .finished
  kinds_out : ∀ r ∈ wrote, r.kind ≠ .handshake ∧ r.kind ≠ .finished ∧ r.kind ≠ .bad
  asked : ∀ asks, .keyUpdate asks ∈ wrote.map Wrote.kind →
    .keyUpdate true ∈ behindFinished S.inbox ++ got
  wants : a.error = .wantRead → a.input = []
  fails : .bad ∈ got → a.plain = [] ∧ .alert ∈ wrote.map Wrote.kind

section Decidable

variable (T : Tls) (a : HandshakeAnswer) (r : ReadAnswer) (cap : ℕ) (bytes : Bytes)
  (got : List RecordKind) (wrote : List Wrote)

instance (f : Bytes) : Decidable (tlsRecord.IsFrame f) := inferInstanceAs (Decidable (_ ∧ _))

instance : Decidable (S.Reads bytes got) :=
  decidable_of_iff (_ ∧ _) ⟨fun h => ⟨h.1, h.2⟩, fun h => ⟨h.1, h.2⟩⟩

instance : Decidable (S.Writes bytes wrote) :=
  decidable_of_iff (_ ∧ _) ⟨fun h => ⟨h.1, h.2⟩, fun h => ⟨h.1, h.2⟩⟩

instance : Decidable (S.Waits T a got wrote) :=
  decidable_of_iff (_ ∧ _ ∧ _ ∧ _ ∧ _ ∧ _)
    ⟨fun ⟨h1, h2, h3, h4, h5, h6⟩ => ⟨h1, h2, h3, h4, h5, h6⟩,
      fun ⟨h1, h2, h3, h4, h5, h6⟩ => ⟨h1, h2, h3, h4, h5, h6⟩⟩

instance : Decidable (S.Completes T a got wrote) :=
  decidable_of_iff (_ ∧ _ ∧ _ ∧ _ ∧ _ ∧ _ ∧ _ ∧ _ ∧ _)
    ⟨fun ⟨h1, h2, h3, h4, h5, h6, h7, h8, h9⟩ => ⟨h1, h2, h3, h4, h5, h6, h7, h8, h9⟩,
      fun ⟨h1, h2, h3, h4, h5, h6, h7, h8, h9⟩ => ⟨h1, h2, h3, h4, h5, h6, h7, h8, h9⟩⟩

instance : Decidable (S.Again T a got wrote) :=
  decidable_of_iff (_ ∧ _ ∧ _ ∧ _ ∧ _ ∧ _ ∧ _ ∧ _)
    ⟨fun ⟨h1, h2, h3, h4, h5, h6, h7, h8⟩ => ⟨h1, h2, h3, h4, h5, h6, h7, h8⟩,
      fun ⟨h1, h2, h3, h4, h5, h6, h7, h8⟩ => ⟨h1, h2, h3, h4, h5, h6, h7, h8⟩⟩

instance : Decidable (S.Handshake T a got wrote) :=
  decidable_of_iff (S.Waits T a got wrote ∨ S.Completes T a got wrote ∨ S.Again T a got wrote)
    ⟨fun h => h.elim .waits (fun h => h.elim .completes .again),
      fun h => by
        cases h with
        | waits h => exact .inl h
        | completes h => exact .inr (.inl h)
        | again h => exact .inr (.inr h)⟩

instance : Decidable (S.SslRead cap r got wrote) :=
  decidable_of_iff (_ ∧ _ ∧ _ ∧ _ ∧ _ ∧ _ ∧ _ ∧ _ ∧ _)
    ⟨fun ⟨h1, h2, h3, h4, h5, h6, h7, h8, h9⟩ => ⟨h1, h2, h3, h4, h5, h6, h7, h8, h9⟩,
      fun ⟨h1, h2, h3, h4, h5, h6, h7, h8, h9⟩ => ⟨h1, h2, h3, h4, h5, h6, h7, h8, h9⟩⟩

end Decidable

end Session

/-- A call on the exchange, with OpenSSL's answers inside it. -/
inductive Op
  | feed (bytes : Bytes) (written : ℤ)
  | step (a : HandshakeAnswer) (fate : DeriveFate) (got : List RecordKind) (wrote : List Wrote)
  | take (cap : ℕ)
  | backlog (cap : ℕ) (a : ReadAnswer) (got : List RecordKind) (wrote : List Wrote)
  | ask (np : NullPending) (dir : KtlsDirection)

/-- A call that, once the exchange is done, leaves the receive side alone. -/
def Op.Outward : Op → Prop
  | .step _ _ _ _ | .take _ | .ask _ _ => True
  | .feed _ _ | .backlog _ _ _ _ => False

/-- A call that only fetches what is there for the peer or the program. -/
def Op.Fetches : Op → Prop
  | .take _ | .backlog _ _ _ _ => True
  | .feed _ _ | .step _ _ _ _ | .ask _ _ => False

/-- A call that leaves the key of direction `dir` where it is: it reads no KeyUpdate,
or, when sending, none that asks for an answer. -/
def Op.Quiet (dir : KtlsDirection) : Op → Prop
  | .backlog _ _ got _ =>
    match dir with
    | .rx => ∀ k ∈ got, k.Plain
    | .tx => .keyUpdate true ∉ got
  | .feed _ _ | .step _ _ _ _ | .take _ | .ask _ _ => True

instance (dir : KtlsDirection) (op : Op) : Decidable (op.Quiet dir) :=
  match op, dir with
  | .backlog _ _ got _, .rx => inferInstanceAs (Decidable (∀ k ∈ got, k.Plain))
  | .backlog _ _ got _, .tx => inferInstanceAs (Decidable (_ ∉ got))
  | .feed _ _, _ | .step _ _ _ _, _ | .take _, _ | .ask _ _, _ => .isTrue trivial

namespace Session

variable (K : Kdf) (T : Tls)

/-- The session after a call. -/
def after (S : Session) : Op → Session
  | .feed bytes written =>
    let r := ktlsExchangeFeed S.x bytes written
    let S' := { S with x := r.2 }
    { S' with
      fed := if r.1.isOk then S.fed ++ bytes else S.fed
      arrived := S.arrived ++ S'.unread.drop S.unread.length }
  | .step a fate got wrote =>
    let S' := { S with x := (ktlsExchangeStep K S.x a fate).2 }
    if S.x.done then S'
    else { S' with
      inbox := S.inbox ++ got, outbox := S.outbox ++ wrote, logged := S.logged ++ a.keylog }
  | .take cap =>
    let r := ktlsExchangeTake S.x cap
    { S with x := r.2, taken := S.taken ++ r.1.toOption.getD [] }
  | .backlog _ a got wrote =>
    let S' := { S with x := (ktlsExchangeBacklog S.x a).2 }
    if S.x.done then { S' with
      inbox := S.inbox ++ got, outbox := S.outbox ++ wrote, logged := S.logged ++ a.keylog }
    else S'
  | .ask np dir => { S with x := (ktlsCryptoInfo np S.x dir).2 }

/-- Which answers OpenSSL may give. -/
def permits (S : Session) : Op → Prop
  | .feed _ _ => True
  | .step a _ got wrote => S.x.done = false → S.Handshake T a got wrote
  | .take cap => 0 < cap
  | .backlog cap a got wrote => S.x.done = true → S.SslRead cap a got wrote
  | .ask _ _ => True

instance (S : Session) (op : Op) : Decidable (permits T S op) :=
  match op with
  | .feed _ _ => .isTrue trivial
  | .step a _ got wrote => inferInstanceAs (Decidable (_ → S.Handshake T a got wrote))
  | .take cap => inferInstanceAs (Decidable (0 < cap))
  | .backlog cap a got wrote => inferInstanceAs (Decidable (_ → S.SslRead cap a got wrote))
  | .ask _ _ => .isTrue trivial

/-- The step that ends a server's exchange comes when its flight has been taken, and no
whole record behind its Finished. -/
def Prompt (S : Session) : Op → Prop
  | .step a fate got wrote => T.server = true → S.x.done = false →
      (after K S (.step a fate got wrote)).x.done = true →
      (tlsRecord.frames S.taken).length = flight S.outKinds
  | _ => True

instance (S : Session) (op : Op) : Decidable (Prompt K T S op) :=
  match op with
  | .step _ _ _ _ => inferInstanceAs (Decidable (_ → _))
  | .feed _ _ | .take _ | .backlog _ _ _ _ | .ask _ _ => .isTrue trivial

/-- Every run of feed, step, take, backlog and crypto_info on an exchange. -/
def machine : Machine Session Op where
  permits := permits T
  next := after K

/-- The runs that leave the key of direction `dir` alone and, when sending, end a
server's exchange in time. -/
def following (dir : KtlsDirection) : Machine Session Op :=
  (machine K T).restrict fun S op => op.Quiet dir ∧ (dir = .tx → S.Prompt K T op)

instance (S : Session) (op : Op) : Decidable ((machine K T).permits S op) :=
  inferInstanceAs (Decidable (permits T S op))

instance (dir : KtlsDirection) (S : Session) (op : Op) :
    Decidable ((following K T dir).permits S op) :=
  inferInstanceAs (Decidable (_ ∧ _ ∧ (_ → _)))

/-- A freshly opened exchange of the side `T` says. -/
def opened : Session where
  x := ktlsExchangeOpen (if T.server then .server else .client)

end Session

end Ktls
