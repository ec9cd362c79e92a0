import Ktls.Model.Exchange

/-! The socket the keys go to, on Linux. The kernel may refuse any `setsockopt`, so
whether it accepts one is an argument; a key it accepts cannot be taken out again. -/

namespace Ktls

def ipprotoTcp : ℤ := 6
def tcpUlp : ℤ := 31
def solTls : ℤ := 282
def tlsTx : ℤ := 1
def tlsRx : ℤ := 2

/-- What the kernel holds of a TCP socket. -/
structure TcpSocket where
  ulp : Bool := false
  tx : Option Bytes := none
  rx : Option Bytes := none
  deriving DecidableEq

/-- Keys are for a socket with the ULP attached, and the ULP is attached by name. -/
def setsockopt (sock : TcpSocket) (level name : ℤ) (value : Bytes) (accepts : Bool) :
    Bool × TcpSocket :=
  if ¬ accepts then (false, sock)
  else if level = ipprotoTcp ∧ name = tcpUlp ∧ value = ascii "tls" ++ [0] then
    (true, { sock with ulp := true })
  else if level = solTls ∧ name = tlsTx ∧ sock.ulp then (true, { sock with tx := some value })
  else if level = solTls ∧ name = tlsRx ∧ sock.ulp then (true, { sock with rx := some value })
  else (false, sock)

def ktlsAttachUlp (sock : TcpSocket) (accepts : Bool) : Except String Unit × TcpSocket :=
  match setsockopt sock ipprotoTcp tcpUlp (ascii "tls" ++ [0]) accepts with
  | (false, sock) => (.error "setsockopt(TCP_ULP, \"tls\")", sock)
  | (true, sock) => (.ok (), sock)

def ktlsSolTls : ℤ := solTls

def ktlsOptname (dir : KtlsDirection) : ℤ := if dir = .tx then tlsTx else tlsRx

/-- `ktls_initialized`, and which of the three `setsockopt` the kernel accepts. -/
structure OffloadFate where
  initialized : Bool := true
  ulp : Bool := true
  tx : Bool := true
  rx : Bool := true
  deriving DecidableEq

/-- Both blobs are asked for before either answer is looked at, so the last error is the
one of the receive side. -/
def ktlsOffload (np : NullPending) (x : KtlsExchange) (sock : TcpSocket) (fate : OffloadFate) :
    Except String Unit × KtlsExchange × TcpSocket :=
  match ktlsCryptoInfo np x .tx with
  | (tx, x) =>
    match ktlsCryptoInfo np x .rx with
    | (rx, x) =>
      match tx, rx with
      | _, .error e => (.error e, x, sock)
      | .error e, .ok _ => (.error e, x, sock)
      | .ok tx, .ok rx =>
        if ¬ fate.initialized then
          (.error ("kTLS is not initialized (tls module not loaded) - load it " ++
            "deliberately: modprobe tls, or ktls_load_module()"), x, sock)
        else if ktlsOptname .rx < 0 then
          (.error ("this kernel offloads sending but not receiving, and half a " ++
            "socket is not an offer this library makes"), x, sock)
        else
          match ktlsAttachUlp sock fate.ulp with
          | (.error e, sock) => (.error e, x, sock)
          | (.ok (), sock) =>
            match setsockopt sock ktlsSolTls (ktlsOptname .tx) tx fate.tx with
            | (false, sock) => (.error "setsockopt(TLS_TX)", x, sock)
            | (true, sock) =>
              match setsockopt sock ktlsSolTls (ktlsOptname .rx) rx fate.rx with
              | (false, sock) => (.error "setsockopt(TLS_RX)", x, sock)
              | (true, sock) => (.ok (), x, sock)

end Ktls
