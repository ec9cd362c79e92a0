import Ktls.Model.Exchange

/-! The end of an exchange: what is erased, and the memory that goes back to `free`. -/

namespace Ktls

/-- `struct ktls_exchange` as `free` gets it: whether the three pointers in it are set,
though what they led to is gone, and the other fields. -/
structure FreedExchange where
  pointers : Bool
  fields : KtlsExchange

/-- `ktls_exchange_free` of an exchange, up to its call of `free`. `SSL_free` and `BIO_free`
take what the pointers lead to and leave the pointers; `OPENSSL_cleanse` leaves zeros. -/
def ktlsExchangeFree (x : KtlsExchange) : FreedExchange where
  pointers := x.ssl.isSome
  fields := { x with
    ssl := none
    secret := fun _ => List.replicate ktlsSecretMax 0
    info := fun _ => {} }

end Ktls
