import Ktls.Model.Alpn

/-! The search for a module's name in the kernel's module lists. What `read` delivers,
call by call, is an argument: a list of pieces, then an end or an error, which are the
same to the loop. The buffer is an argument too, for nothing initialises it. -/

namespace Ktls

/-- `sizeof(buf)`. -/
def searchBuffer : ℕ := 4096

/-- `a - b` of two `size_t`. -/
def sizeSub (a b : ℕ) : ℕ := (((a : ℤ) - b) % 2 ^ 64).toNat

/-- The inner loop, from `i` to `last` included. The word stands in memory with its NUL. -/
def searchFrom (want buf : Bytes) (last : ℕ) : ℕ → ℕ → Walk Bool
  | 0, _ => .running
  | fuel + 1, i =>
    if i ≤ last then
      if h : i < buf.length then
        if buf[i] = want.headD 0 then
          match memcmpAt buf i want 0 want.length with
          | none => .outside
          | some true => .returned true
          | some false => searchFrom want buf last fuel (i + 1)
        else searchFrom want buf last fuel (i + 1)
      else .outside
    else .returned false

/-- `read(fd, buf + offset, count)`. -/
structure ReadCall where
  offset : ℕ
  count : ℕ
  deriving DecidableEq

/-- The body of the loop behind its `read`: the word is found, or the buffer and `held` are
ready for the next turn. The inner loop stops at the end of the buffer, so its length is
fuel enough and two turns to spare. -/
def searchTurn (want buf : Bytes) (held : ℕ) (piece : Bytes) : Walk (Option (Bytes × ℕ)) :=
  let buf := memcpy buf held piece
  let have_ := held + piece.length
  let found :=
    if want.length ≤ have_ then
      searchFrom want buf (sizeSub have_ want.length) (buf.length + 2) 0
    else .returned false
  match found with
  | .running => .running
  | .outside => .outside
  | .returned true => .returned none
  | .returned false =>
    let held := if sizeSub want.length 1 < have_ then sizeSub want.length 1 else have_
    if sizeSub have_ held + held ≤ buf.length then
      .returned (some (memcpy buf 0 ((buf.drop (sizeSub have_ held)).take held), held))
    else .outside

/-- The loop; it answers beside every `read` it made. -/
def searchLoop (want : Bytes) : List Bytes → Bytes → ℕ → Walk Bool × List ReadCall
  | [], buf, held => (.returned false, [⟨held, sizeSub buf.length held⟩])
  | piece :: reads, buf, held =>
    let call : ReadCall := ⟨held, sizeSub buf.length held⟩
    if piece.length = 0 then (.returned false, [call])
    else
      match searchTurn want buf held piece with
      | .running => (.running, [call])
      | .outside => (.outside, [call])
      | .returned none => (.returned true, [call])
      | .returned (some (buf, held)) =>
        let rest := searchLoop want reads buf held
        (rest.1, call :: rest.2)

/-- `ktls_file_names`; a file that cannot be opened has no reads at all. -/
def ktlsFileNames (file : Option (List Bytes)) (want buf : Bytes) : Walk Bool × List ReadCall :=
  match file with
  | none => (.returned false, [])
  | some reads => searchLoop want reads buf 0

/-- `snprintf(path, sizeof(path), "/lib/modules/%s/...", u.release)`, where `path` has room
for 64 bytes more than `u.release`, which has 65. -/
def modulePath (release : Bytes) (list : String) : Bytes :=
  (ascii "/lib/modules/" ++ release ++ ascii list).take 128

def tlsModule : Bytes := ascii "net/tls/tls.ko"

/-- `ktls_available`: whether `/proc/net/tls_stat` is there, what `uname` says, and the
files; `stack` is what each search finds in its buffer. -/
def ktlsAvailable (initialized : Bool) (release : Option Bytes)
    (files : Bytes → Option (List Bytes)) (stack : Bytes → Bytes) : Walk Bool :=
  if initialized then .returned true
  else
    match release with
    | none => .returned false
    | some release =>
      let dep := modulePath release "/modules.dep"
      let builtin := modulePath release "/modules.builtin"
      match (ktlsFileNames (files dep) tlsModule (stack dep)).1 with
      | .returned false => (ktlsFileNames (files builtin) tlsModule (stack builtin)).1
      | found => found

end Ktls
