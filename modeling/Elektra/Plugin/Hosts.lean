import Elektra.Meta.CmpOrder
import Elektra.Plugin.Csvstorage

/-!
# The hosts plugin

Each line of a hosts file that names a host becomes a key, with a key below it for each alias. The comments
before the line and at its end are metadata of the host.

* `MetaSet`: a key set of metakeys; `elektraAddLineComment`, `elektraAddInlineComment`;
* `State`, `hostsStep`, `elektraHostsGet`: the lines one after the other;
* `elektraHostsSet`.
-/

namespace Elektra.Hosts

open Ease
open Csvstorage (newline fgets)

def HOSTS_KDB_BUFFER_SIZE : ℕ := 16384

/-- `isblank` -/
def isblank (c : UInt8) : Bool := c = 32 || c = 9

/-! ## Comments -/

/-- A key set of metakeys and their values, in the order of their names. -/
abbrev MetaSet := List (Str × Str)

/-- `ksAppendKey` -/
def ksAppendMeta (ks : MetaSet) (name value : Str) : MetaSet :=
  ks.filter (fun m => compare m.1 name = .lt) ++ (name, value) :: ks.filter (fun m => compare m.1 name = .gt)

/-- The name of an element of the array `comment`. -/
def commentName (baseName : Str) : Str := str "comment/" ++ baseName

/-- The filter of `elektraArrayGet` for the array `comment`. -/
def isComment (name : Str) : Bool :=
  (str "comment/").isPrefixOf name && !(name.drop 8).contains pathSeparator && validateBaseName (name.drop 8) ≠ 0

def elektraArrayGet (ks : MetaSet) : MetaSet := ks.filter fun m => isComment m.1

/-- The name of the next key, which may not be there; there is nothing where its number does not fit into the
buffer. -/
def elektraArrayGetNextKey (arrayKeys : MetaSet) : Option (Option Str) :=
  match arrayKeys.getLast? with
  | none => some none
  | some last => (incBaseName (last.1.drop 8)).map fun newName => newName.map commentName

def elektraAddCommentInfo (comments : MetaSet) (commentBase : Str) (spaces : ℕ) (commentStart comment : Option Str) :
    MetaSet :=
  let comments := match commentStart with
    | none => comments
    | some start => ksAppendMeta comments (commentBase ++ str "/start") start
  let comments := ksAppendMeta comments commentBase (comment.getD [])
  if commentStart.isSome ∨ 0 < spaces then ksAppendMeta comments (commentBase ++ str "/space") (digits spaces)
  else comments

/-- The element `#0` is for the comment at the end of a line. -/
def elektraAddLineComment (comments : MetaSet) (spaces : ℕ) (commentStart comment : Option Str) : Option MetaSet :=
  let arrayKeys := if comments.length = 0 then ksAppendMeta comments (commentName (elektraWriteArrayNumber 0)) []
    else elektraArrayGet comments
  let comments := if comments.length = 0 then arrayKeys else comments
  (elektraArrayGetNextKey arrayKeys).map fun lineComment =>
    match lineComment with
    | none => comments
    | some lineComment => elektraAddCommentInfo comments lineComment spaces commentStart comment

def elektraAddInlineComment (comments : MetaSet) (spaces : ℕ) (commentStart comment : Option Str) : Option MetaSet :=
  some (elektraAddCommentInfo comments (commentName (elektraWriteArrayNumber 0)) spaces commentStart comment)

/-- The comments with the one of the line; none where there is no comment, and nothing at all where the
constructor gives nothing. -/
def parseComment (constructor : MetaSet → ℕ → Option Str → Option Str → Option MetaSet) (comments : MetaSet)
    (line : Str) : Option (Option MetaSet) :=
  let spaces := (line.takeWhile isblank).length
  match line.dropWhile isblank with
  | [] => some none
  | c :: comment =>
    if c = newline then (constructor comments spaces none none).map some
    else if c = 35 then
      (constructor comments spaces (some (str "#")) (some (comment.takeWhile (· ≠ newline)))).map some
    else some none

def elektraKeySetMetaKeySet (key : Key) (metaKeySet : MetaSet) : Key :=
  metaKeySet.foldl (fun key m => (keySetMeta key m.1 (some m.2)).2) key

/-! ## Reading -/

def inToken (c : UInt8) : Bool := !isblank c && c ≠ newline

/-- The token and what is behind it. -/
def elektraParseToken (line : Str) : Option (Str × Str) :=
  match line.dropWhile isblank with
  | [] => none
  | c :: rest =>
    if c = newline then none else some ((c :: rest).takeWhile inToken, (c :: rest).dropWhile inToken)

section Get

/- Whether `getaddrinfo` tells the family `AF_INET6`. -/
variable (ipv6 : Str → Bool)

def familyName (address : Str) : Str := if ipv6 address then str "ipv6" else str "ipv4"

def addAddressHierarchy (key : Key) (fieldbuffer : Str) : Key :=
  (keyAddBaseName key (some (familyName ipv6 fieldbuffer))).2

/-- The key, which is changed in any case, and what is behind the name. -/
def parseCanonicalName (result : Key) (line : Str) : Key × Option Str :=
  match elektraParseToken line with
  | none => (result, none)
  | some (address, line) =>
    let result := keySetString (addAddressHierarchy ipv6 result address) address
    match elektraParseToken line with
    | none => (result, none)
    | some (name, line) => ((keyAddBaseName result (some name)).2, some line)

/-- The number as an `int`. -/
def toInt (order : ℕ) : ℤ := ((order : ℤ) + 2 ^ 31) % 2 ^ 32 - 2 ^ 31

def setOrderMeta (key : Key) (order : ℕ) : Key :=
  let number := toInt order
  (keySetMeta key (str "order") (some ((if number < 0 then str "-" else []) ++ digits number.natAbs))).2

/-- Whether `ksLookup` finds a key of that name, in a namespace. -/
def ksFound (ks : List Key) (key : Key) : Bool :=
  (Bisect.halfOpen (fun i => (ks[i]?).elim .lt (keyCompareByName key)) ks.length).isSome

def parseAlias (append : List Key) (hostParent : Key) (tokenPointer : Str) : Option (List Key × Str) :=
  match elektraParseToken tokenPointer with
  | none => none
  | some (token, rest) =>
    let aliasKey := (keyAddBaseName (keyDup hostParent) (some token)).2
    some (if ksFound append aliasKey then append else ksAppendValue append aliasKey, rest)

/-- The loop over the aliases. -/
def readAliases (currentKey : Key) : ℕ → List Key → MetaSet → Str → Option (List Key × MetaSet)
  | 0, _, _, _ => none
  | fuel + 1, append, comments, tokenPointer =>
    match parseComment elektraAddInlineComment comments tokenPointer with
    | none => none
    | some (some comments) => some (append, comments)
    | some none =>
      match parseAlias append currentKey tokenPointer with
      | none => some (append, comments)
      | some (append, tokenPointer) => readAliases currentKey fuel append comments tokenPointer

structure State where
  currentKey : Option Key
  comments : MetaSet
  order : ℕ
  append : List Key

/-- A round of the loop, with the line up to a NUL. -/
def hostsStep (parentKey : Key) (readBuffer : Str) (s : State) : Option State :=
  let currentKey := s.currentKey.getD (keyDup parentKey)
  match parseComment elektraAddLineComment s.comments readBuffer with
  | none => none
  | some (some comments) => some { s with currentKey := some currentKey, comments := comments }
  | some none =>
    match parseCanonicalName ipv6 currentKey readBuffer with
    | (currentKey, none) => some { s with currentKey := some currentKey }
    | (currentKey, some tokenPointer) =>
      -- only the first entry is honored
      if ksFound s.append currentKey then some { s with currentKey := none, comments := [] }
      else
        let currentKey := setOrderMeta currentKey s.order
        (readAliases currentKey (tokenPointer.length + 1) (ksAppendValue s.append currentKey) s.comments
          tokenPointer).map fun (append, comments) =>
            -- the key is one of `append`
            ⟨none, [], s.order + 1, ksAppendValue append (elektraKeySetMetaKeySet currentKey comments)⟩

def hostsLoop (parentKey : Key) : ℕ → Str → State → Option State
  | 0, _, _ => none
  | fuel + 1, file, s =>
    let readBuffer := fgets file HOSTS_KDB_BUFFER_SIZE
    if readBuffer = [] then some s
    else
      (hostsStep ipv6 parentKey (readBuffer.takeWhile (· ≠ 0)) s).bind
        (hostsLoop parentKey fuel (file.drop readBuffer.length))

def startState (parentKey : Key) : State := ⟨none, [], 1, ksAppendValue [] (keyDup parentKey)⟩

def moduleName : Str := str "system/elektra/modules/hosts"

/-- The file, and what `strerror` says where it is not read to its end. -/
def elektraHostsGet (env : Environment) (moduleConfig : List Key) (file : Except Line.Errno (Str × Option Str))
    (returned : List Key) (parentKey : Key) : Option (ℤ × List Key × Key) :=
  if keyName parentKey = moduleName then some (1, moduleConfig.foldl ksAppendValue returned, parentKey)
  else
    match file with
    | .error errno => some (-1, returned, env.setError (if errno.access then 109 else 110) parentKey errno.text)
    | .ok (file, ferror) =>
      (hostsLoop ipv6 parentKey (file.length + 1) file (startState parentKey)).map fun s =>
        -- comments without a matching entry
        let parentKey := elektraKeySetMetaKeySet parentKey s.comments
        match ferror with
        | none => (1, s.append, parentKey)
        | some text => (-1, [], env.setError 10 parentKey text)

end Get

/-! ## Writing -/

/-- The number and what is behind it. -/
def strtol (s : Str) : ℤ × Str :=
  let t := s.dropWhile isspace
  let number := if t.head? = some 45 ∨ t.head? = some 43 then t.tail else t
  if number.takeWhile isdigit = [] then (0, s) else (Rename.atoiSigned s, number.dropWhile isdigit)

def writeComment (spaces start comment : Option Str) : Str :=
  (match spaces with
    | none => []
    | some spaces => if (strtol spaces).2 = [] then List.replicate (strtol spaces).1.toNat 32 else []) ++
  start.getD [] ++ comment.getD []

/-- The metadata in the order of the names. -/
def elektraKeyGetMetaKeySet (key : Key) : MetaSet :=
  key.metaKeys.foldr (fun m ks => ksAppendMeta ks m.1 m.2) []

def writeLineComments (key : Key) : Str :=
  (elektraArrayGet (elektraKeyGetMetaKeySet key)).flatMap fun current =>
    if current.1 = commentName (str "#0") then []
    else writeComment (keyGetMeta key (current.1 ++ str "/space")) (keyGetMeta key (current.1 ++ str "/start"))
      (keyGetMeta key current.1) ++ [newline]

def writeInlineComment (key : Key) : Str :=
  writeComment (keyGetMeta key (commentName (str "#0/space"))) (keyGetMeta key (commentName (str "#0/start")))
    (keyGetMeta key (commentName (str "#0")))

/-- The subkeys; there is nothing when `keyRel` reads behind a name. -/
def writeAliases (key : Key) : List Key → Option Str
  | [] => some []
  | current :: rest => do
    let rel ← keyRel key current
    if rel < 1 then some []
    else do
      let out ← writeAliases key rest
      some ((32 : UInt8) :: keyBaseName current ++ out)

def writeHostsEntry (key : Key) (returned : List Key) : Option Str := do
  let found := Bisect.halfOpen (fun i => (returned[i]?).elim .lt (keyCompareByName key)) returned.length
  let aliases ← writeAliases key (found.elim [] fun found => returned.drop (found + 1))
  some (keyString key ++ (9 : UInt8) :: keyBaseName key ++ aliases)

def keyCmpOrderWrapper (a b : Key) : ℤ := CmpOrder.elektraKeyCmpOrder (some a) (some b)

abbrev Qsort := (Key → Key → ℤ) → List Key → List Key

/-- What is known of `qsort`, where the comparison is that of a rank. -/
structure Qsort.Sorts (qsort : Qsort) : Prop where
  perm : ∀ cmp keys, (qsort cmp keys).Perm keys
  pairwise : ∀ cmp keys (rank : Key → ℤ), (∀ a ∈ keys, ∀ b ∈ keys, cmp a b ≤ 0 ↔ rank a ≤ rank b) →
    (qsort cmp keys).Pairwise fun a b => rank a ≤ rank b

/-- The entries, one after the other. -/
def writeEntries (ipv4Base ipv6Base : Key) (returned : List Key) : List Key → Option Str
  | [] => some []
  | key :: rest => do
    let ipv4 ← keyIsDirectBelow ipv4Base key
    let isHost ← if ipv4 then some true else keyIsDirectBelow ipv6Base key
    let out ← writeEntries ipv4Base ipv6Base returned rest
    -- only canonical name keys
    if isHost then do
      let entry ← writeHostsEntry key returned
      some (writeLineComments key ++ entry ++ writeInlineComment key ++ [newline] ++ out)
    else some out

/-- The file that is written. -/
def elektraHostsSet (env : Environment) (qsort : Qsort) (file : Except Line.Errno Unit) (returned : List Key)
    (parentKey : Key) : Option (ℤ × Option Str × Key) :=
  match file with
  | .error errno => some (-1, none, env.setError (if errno.access then 9 else 75) parentKey errno.text)
  | .ok _ => do
    let ipv4Base := (keyAddBaseName (keyDup parentKey) (some (str "ipv4"))).2
    let ipv6Base := (keyAddBaseName (keyDup parentKey) (some (str "ipv6"))).2
    let entries ← writeEntries ipv4Base ipv6Base returned (qsort keyCmpOrderWrapper returned)
    some (1, some (entries ++ writeLineComments parentKey), parentKey)

end Elektra.Hosts
