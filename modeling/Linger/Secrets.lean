import Mathlib.Data.List.Nodup
import Mathlib.Logic.Function.Basic

/-! Where sign-ins are kept: one entry for each server in the system's keyring and a list of
the servers beside them, written by calls any of which the keyring may fail. -/
namespace Linger.Secrets

abbrev Text := List Char

/-- The account holding the list of servers, oldest first. -/
def indexAccount (ns : Text) : Text := ns ++ "-servers".toList

/-- The account holding one server's session. -/
def serverAccount (ns baseUrl : Text) : Text := ns ++ ("-server:".toList ++ baseUrl)

/-- What single-server builds wrote. -/
def legacyAccount (ns : Text) : Text := ns

structure StoredSession where
  baseUrl : Text
  refreshToken : Text
  deriving DecidableEq

inductive SessionsLoad
  | found (sessions : List StoredSession)
  | empty
  | unavailable (reason : Text)
  deriving DecidableEq

inductive SessionWrite
  | done
  | unavailable (reason : Text)
  deriving DecidableEq

/-- How the keyring answers one call. One that fails says why, and a write may have been made
all the same. -/
inductive Call
  | works
  | fails (reason : Text) (took : Bool)
  deriving DecidableEq

def Call.answer : Call → SessionWrite
  | .works => .done
  | .fails reason _ => .unavailable reason

def Call.takes : Call → Bool
  | .works => true
  | .fails _ took => took

/-- What the keyring holds, and how it answers the next calls. Past those it works. -/
structure Keyring where
  held : Text → Option Text
  calls : List Call

def Keyring.call (k : Keyring) : Call := k.calls.headD .works

def Keyring.next (k : Keyring) : Keyring := { k with calls := k.calls.tail }

inductive Held
  | found (value : Text)
  | missing
  | unavailable (reason : Text)

def read (account : Text) (k : Keyring) : Held × Keyring :=
  match k.call with
  | .fails reason _ => (.unavailable reason, k.next)
  | .works =>
    match k.held account with
    | some value => (.found value, k.next)
    | none => (.missing, k.next)

/-- One account's contents, stored or deleted. Deleting nothing is a success. -/
def put (account : Text) (value : Option Text) (k : Keyring) : SessionWrite × Keyring :=
  (k.call.answer,
    if k.call.takes then { k.next with held := Function.update k.held account value } else k.next)

def write (account value : Text) (k : Keyring) : SessionWrite × Keyring :=
  put account (some value) k

def delete (account : Text) (k : Keyring) : SessionWrite × Keyring := put account none k

/-- How the two kinds of contents are written as text and read back. -/
structure Json where
  listText : List Text → Except Text Text
  readList : Text → Option (List Text)
  sessionText : StoredSession → Except Text Text
  readSession : Text → Option StoredSession

/-- What is written is read back as it was. -/
structure Json.Faithful (json : Json) : Prop where
  list : ∀ urls text, json.listText urls = .ok text → json.readList text = some urls
  session : ∀ session text, json.sessionText session = .ok text →
    json.readSession text = some session

variable (json : Json) (ns : Text)

/-- The server list, or an empty one if it is missing or unreadable. -/
def index (k : Keyring) : List Text × Keyring :=
  match read (indexAccount ns) k with
  | (.found text, k) => ((json.readList text).getD [], k)
  | (_, k) => ([], k)

def putIndex (urls : List Text) (k : Keyring) : SessionWrite × Keyring :=
  match json.listText urls with
  | .ok text => write (indexAccount ns) text k
  | .error err =>
    (.unavailable ("Couldn't prepare the server list for storage (".toList ++ err ++ ").".toList),
      k)

def saveIn (session : StoredSession) (k : Keyring) : SessionWrite × Keyring :=
  match json.sessionText session with
  | .error err =>
    (.unavailable ("Couldn't prepare the session for storage (".toList ++ err ++ ").".toList), k)
  | .ok text =>
    -- the token first, the list second: a listed server whose token never landed shows
    match write (serverAccount ns session.baseUrl) text k with
    | (.unavailable reason, k) => (.unavailable reason, k)
    | (.done, k) =>
      let urls := index json ns k
      if urls.1.any (· == session.baseUrl) then (.done, urls.2)
      else putIndex json ns (urls.1 ++ [session.baseUrl]) urls.2

def forgetIn (baseUrl : Text) (k : Keyring) : SessionWrite × Keyring :=
  match delete (serverAccount ns baseUrl) k with
  | (.unavailable reason, k) => (.unavailable reason, k)
  | (.done, k) =>
    let urls := index json ns k
    let kept := urls.1.filter (· != baseUrl)
    if kept.length == urls.1.length then (.done, urls.2)
    else if kept.isEmpty then delete (indexAccount ns) urls.2
    else putIndex json ns kept urls.2

/-- Carries a sign-in of a single-server build forward. -/
def adoptLegacy (k : Keyring) : SessionsLoad × Keyring :=
  match read (legacyAccount ns) k with
  | (.found text, k) =>
    match json.readSession text with
    | none => (.empty, k)
    | some session =>
      let saved := (saveIn json ns session k).2
      (.found [session], (delete (legacyAccount ns) saved).2)
  | (_, k) => (.empty, k)

/-- The sessions of the listed servers. One whose entry has gone is skipped. -/
def readSessions : List Text → Keyring → List StoredSession × Keyring
  | [], k => ([], k)
  | url :: urls, k =>
    match read (serverAccount ns url) k with
    | (.found text, k) =>
      let rest := readSessions urls k
      match json.readSession text with
      | some session => (session :: rest.1, rest.2)
      | none => rest
    | (_, k) => readSessions urls k

def loadIn (k : Keyring) : SessionsLoad × Keyring :=
  match read (indexAccount ns) k with
  | (.unavailable reason, k) => (.unavailable reason, k)
  | (.missing, k) => adoptLegacy json ns k
  | (.found text, k) =>
    let sessions := readSessions json ns ((json.readList text).getD []) k
    if sessions.1.isEmpty then (.empty, sessions.2) else (.found sessions.1, sessions.2)

/-- What the app asks, and how the keyring answers the calls it takes. -/
inductive Op
  | save (session : StoredSession) (calls : List Call)
  | forget (baseUrl : Text) (calls : List Call)
  | load (calls : List Call)

def Op.about (baseUrl : Text) : Op → Bool
  | .save session _ => session.baseUrl == baseUrl
  | .forget url _ => url == baseUrl
  | .load _ => false

def Op.apply (held : Text → Option Text) : Op → (Text → Option Text)
  | .save session calls => (saveIn json ns session ⟨held, calls⟩).2.held
  | .forget baseUrl calls => (forgetIn json ns baseUrl ⟨held, calls⟩).2.held
  | .load calls => (loadIn json ns ⟨held, calls⟩).2.held

def run (held : Text → Option Text) (ops : List Op) : Text → Option Text :=
  ops.foldl (fun held op => op.apply json ns held) held

/-- The sessions the next start gets, with a keyring that works. -/
def loaded (held : Text → Option Text) : List StoredSession :=
  match (loadIn json ns ⟨held, []⟩).1 with
  | .found sessions => sessions
  | _ => []

/-- A save that cannot read the list of servers and writes one all the same: its own server is
all it lists. -/
def Op.overwrites : Op → Bool
  | .save session calls =>
    (match json.sessionText session, json.listText [session.baseUrl] with
      | .ok _, .ok _ => true
      | _, _ => false) &&
    (calls.headD .works == .works && calls.tail.headD .works != .works &&
      (calls.tail.tail.headD .works).takes)
  | _ => false

end Linger.Secrets
