import ChatStore.Handlers

/-!
# The logos-delivery write path

Messages arrive as protobuf and go through the same rules as the HTTP bodies. Nobody is answered:
what became of a message is only logged, and that log line is the result here.
-/

namespace ChatStore

/-- What the ingest thread logs about a message. -/
inductive IngestLog (A : AccountLogCrate)
  | invalidProtobuf
  | rejected (err : BundleError A)
  | stored

/-- The log line of a submission that ended with a verdict. -/
def logged {A : AccountLogCrate} : Except (BundleError A) Unit → IngestLog A
  | .ok () => .stored
  | .error err => .rejected err

variable (C : Crates)

/-- `ingest_keypackage`. -/
def ingestKeypackage (now : SystemTime) (bytes : Bytes) (s : Tables) : Tables × IngestLog C.log :=
  match C.decodeKeyPackage bytes with
  | none => (s, .invalidProtobuf)
  | some wire =>
    let (s', verdict) := thenApply (Bundle.fromBytes wire.deviceId wire.payload wire.signature)
      (applyKeypackage C now) s
    (s', logged verdict)

/-- `ingest_account`. -/
def ingestAccount (now : SystemTime) (bytes : Bytes) (s : Tables) : Tables × IngestLog C.log :=
  match C.decodeAccount bytes with
  | none => (s, .invalidProtobuf)
  | some wire =>
    let (s', verdict) := thenApply (Bundle.fromBytes wire.accountPub wire.payload wire.signature)
      (applyAccount C now) s
    (s', logged verdict)

end ChatStore
