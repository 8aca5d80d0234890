/-
The address manager (`addrman.h`, `addrman.cpp`): addresses of peers by number, in random order,
and in buckets of the "new" or the "tried" table.
-/
import Catoshi.Lib.Outcome
import Catoshi.Lib.Table
import Catoshi.Primitives

namespace Catoshi

open Function Outcome

open Table (Rows)

/-- The sixteen bytes of an address. The scope of a link-local one is not compared. -/
abbrev CNetAddr := BaseBlob 16

structure CService where
  ip : CNetAddr
  port : UInt16
deriving DecidableEq, Repr

structure CAddress where
  service : CService
  nServices : UInt64
  nTime : UInt32
deriving DecidableEq, Repr

structure CAddrInfo where
  service : CService
  nServices : UInt64
  nTime : UInt32
  source : CNetAddr
  nLastTry : ℤ
  nLastCountAttempt : ℤ
  nLastSuccess : ℤ
  nAttempts : ℤ
  nRefCount : ℤ
  fInTried : Bool
  nRandomPos : ℤ
deriving DecidableEq, Repr

def addrmanTriedBucketCount : ℕ := 256

def addrmanNewBucketCount : ℕ := 1024

def addrmanBucketSize : ℕ := 64

def addrmanNewBucketsPerAddress : ℤ := 8

def addrmanHorizonDays : ℤ := 30

def addrmanRetries : ℤ := 3

def addrmanMaxFailures : ℤ := 10

def addrmanMinFailDays : ℤ := 7

def addrmanGetAddrMaxPct : ℕ := 23

def addrmanGetAddrMax : ℕ := 2500

instance : NeZero addrmanNewBucketCount := ⟨by decide⟩

abbrev NewPlace := Fin addrmanNewBucketCount × Fin addrmanBucketSize

abbrev TriedPlace := Fin addrmanTriedBucketCount × Fin addrmanBucketSize

/-- `GetTriedBucket`, `GetNewBucket` and `GetBucketPosition`: hashes of the secret key, the address
and for new buckets the source. -/
structure BucketHash where
  triedBucket : Uint256 → CService → Fin addrmanTriedBucketCount
  newBucket : Uint256 → CService → CNetAddr → Fin addrmanNewBucketCount
  bucketPosition : Uint256 → Bool → ℕ → CService → Fin addrmanBucketSize

/-- Assignment of a 64-bit number to an `unsigned int`. -/
def toUnsigned (value : ℤ) : UInt32 :=
  UInt32.ofNat (value % 2 ^ 32).toNat

namespace CAddrInfo

def ofAddress (addr : CAddress) (source : CNetAddr) : CAddrInfo where
  service := addr.service
  nServices := addr.nServices
  nTime := addr.nTime
  source := source
  nLastTry := 0
  nLastCountAttempt := 0
  nLastSuccess := 0
  nAttempts := 0
  nRefCount := 0
  fInTried := false
  nRandomPos := -1

def toAddress (info : CAddrInfo) : CAddress :=
  ⟨info.service, info.nServices, info.nTime⟩

def isTerrible (info : CAddrInfo) (nNow : ℤ) : Bool :=
  let nTime : ℤ := info.nTime.toNat
  if info.nLastTry ≠ 0 ∧ nNow - 60 ≤ info.nLastTry then false
  else if nNow + 10 * 60 < nTime then true
  else if nTime = 0 ∨ addrmanHorizonDays * 24 * 60 * 60 < nNow - nTime then true
  else if info.nLastSuccess = 0 ∧ addrmanRetries ≤ info.nAttempts then true
  else decide (addrmanMinFailDays * 24 * 60 * 60 < nNow - info.nLastSuccess ∧
    addrmanMaxFailures ≤ info.nAttempts)

end CAddrInfo

/-- The tables hold the number of an entry, or -1. -/
structure CAddrMan where
  nIdCount : ℤ
  mapInfo : Rows ℤ CAddrInfo
  mapAddr : Rows CNetAddr ℤ
  vRandom : List ℤ
  nTried : ℤ
  vvTried : TriedPlace → ℤ
  nNew : ℤ
  vvNew : NewPlace → ℤ
  nLastGood : ℤ
  nKey : Uint256

inductive AddrManFailure where
  | assertionFailed
  | noEntry
deriving DecidableEq, Repr

namespace CAddrMan

/-- `Clear`, with the key drawn at random. -/
def clear (nKey : Uint256) : CAddrMan where
  nIdCount := 0
  mapInfo := ∅
  mapAddr := ∅
  vRandom := []
  nTried := 0
  vvTried _ := -1
  nNew := 0
  vvNew _ := -1
  nLastGood := 1
  nKey := nKey

def modifyInfo (id : ℤ) (change : CAddrInfo → CAddrInfo) (man : CAddrMan) : CAddrMan :=
  { man with mapInfo := Table.modify id change man.mapInfo }

variable (place : NewPlace) (hash : BucketHash) (addr : CService) (nId : ℤ)

section

variable (nTime : ℤ) (man : CAddrMan) (service : CService)

def triedPlace : TriedPlace :=
  let nKBucket := hash.triedBucket man.nKey service
  (nKBucket, hash.bucketPosition man.nKey false nKBucket service)

def newPlace (bucket : Fin addrmanNewBucketCount) : NewPlace :=
  (bucket, hash.bucketPosition man.nKey true bucket service)

def find (addr : CNetAddr) (man : CAddrMan) : Option (ℤ × CAddrInfo) :=
  match man.mapAddr.lookup addr with
  | none => none
  | some nId => (man.mapInfo.lookup nId).map fun info => (nId, info)

/-- `Create`. The new entry is numbered by the count before, an `int` that wraps around. -/
def create (addr : CAddress) (addrSource : CNetAddr) (man : CAddrMan) : CAddrMan :=
  { man with
    nIdCount := (man.nIdCount + 1).bmod (2 ^ 32)
    mapInfo := man.mapInfo.insert man.nIdCount
      { CAddrInfo.ofAddress addr addrSource with nRandomPos := man.vRandom.length }
    mapAddr := man.mapAddr.insert addr.service.ip man.nIdCount
    vRandom := man.vRandom ++ [man.nIdCount] }

/-- What `SwapRandom` writes for the entries at two positions. -/
def swapped (nRndPos1 nRndPos2 : ℕ) (nId1 nId2 : ℤ) (man : CAddrMan) : CAddrMan :=
  { man with
    mapInfo := Table.modify nId2 (fun info => { info with nRandomPos := nRndPos1 })
      (Table.modify nId1 (fun info => { info with nRandomPos := nRndPos2 }) man.mapInfo)
    vRandom := (man.vRandom.set nRndPos1 nId2).set nRndPos2 nId1 }

/-- `SwapRandom`. A negative position reads as a large one. -/
def swapRandom (nRndPos1 nRndPos2 : ℤ) (man : CAddrMan) : Except AddrManFailure CAddrMan :=
  if nRndPos1 = nRndPos2 then .ok man
  else if nRndPos1 < 0 ∨ nRndPos2 < 0 then .error .assertionFailed
  else
    match man.vRandom[nRndPos1.toNat]?, man.vRandom[nRndPos2.toNat]? with
    | some nId1, some nId2 =>
      if nId1 ∈ man.mapInfo ∧ nId2 ∈ man.mapInfo then
        .ok (man.swapped nRndPos1.toNat nRndPos2.toNat nId1 nId2)
      else .error .assertionFailed
    | _, _ => .error .assertionFailed

/-- What is left once the entry is last in `vRandom`. -/
def dropLast (nId : ℤ) (info : CAddrInfo) (man : CAddrMan) : CAddrMan :=
  { man with
    vRandom := man.vRandom.dropLast
    mapAddr := man.mapAddr.erase info.service.ip
    mapInfo := man.mapInfo.erase nId
    nNew := man.nNew - 1 }

def delete : Except AddrManFailure CAddrMan :=
  match man.mapInfo.lookup nId with
  | none => .error .assertionFailed
  | some info => do
      require (!info.fInTried) AddrManFailure.assertionFailed
      require (info.nRefCount == 0) AddrManFailure.assertionFailed
      let man ← man.swapRandom info.nRandomPos (man.vRandom.length - 1)
      pure (man.dropLast nId info)

/-- Take an entry out of a place of the "new" table. -/
def vacate : CAddrMan :=
  { man.modifyInfo nId fun info => { info with nRefCount := info.nRefCount - 1 } with
    vvNew := update man.vvNew place (-1) }

/-- `ClearNew`. A missing entry would be made without references. -/
def clearNew : Except AddrManFailure CAddrMan :=
  let nIdDelete := man.vvNew place
  if nIdDelete = -1 then .ok man
  else
    match man.mapInfo.lookup nIdDelete with
    | none => .error .assertionFailed
    | some infoDelete =>
      if infoDelete.nRefCount ≤ 0 then .error .assertionFailed
      else if infoDelete.nRefCount - 1 = 0 then (man.vacate place nIdDelete).delete nIdDelete
      else .ok (man.vacate place nIdDelete)

/-- A turn of the loop of `MakeTried` that empties the new buckets. -/
def removeFrom (man : CAddrMan) (bucket : Fin addrmanNewBucketCount) : CAddrMan :=
  if man.vvNew (man.newPlace hash service bucket) = nId then
    man.vacate (man.newPlace hash service bucket) nId
  else man

/-- Take an entry out of its place in the "tried" table. -/
def untry (place : TriedPlace) (nId : ℤ) (man : CAddrMan) : CAddrMan :=
  { man.modifyInfo nId fun info => { info with fInTried := false } with
    vvTried := update man.vvTried place (-1)
    nTried := man.nTried - 1 }

def reoccupy : CAddrMan :=
  { man.modifyInfo nId fun info => { info with nRefCount := 1 } with
    vvNew := update man.vvNew place nId
    nNew := man.nNew + 1 }

/-- `MakeTried` makes space in the "tried" table. -/
def evictTried (place : TriedPlace) (man : CAddrMan) : Except AddrManFailure CAddrMan :=
  let nIdEvict := man.vvTried place
  if nIdEvict = -1 then .ok man
  else
    match man.mapInfo.lookup nIdEvict with
    | none => .error .assertionFailed
    | some infoOld => do
        let nUPlace := man.newPlace hash infoOld.service
          (hash.newBucket man.nKey infoOld.service infoOld.source)
        let man ← (man.untry place nIdEvict).clearNew nUPlace
        require (man.vvNew nUPlace == -1) AddrManFailure.assertionFailed
        pure (man.reoccupy nUPlace nIdEvict)

def enterTried (place : TriedPlace) (nId : ℤ) (man : CAddrMan) : CAddrMan :=
  { man.modifyInfo nId fun info => { info with fInTried := true } with
    vvTried := update man.vvTried place nId
    nTried := man.nTried + 1 }

def makeTried (info : CAddrInfo) (man : CAddrMan) : Except AddrManFailure CAddrMan := do
  let man := (List.finRange addrmanNewBucketCount).foldl (removeFrom hash nId info.service) man
  let man := { man with nNew := man.nNew - 1 }
  require ((man.mapInfo.lookup nId).any fun info => info.nRefCount == 0)
    AddrManFailure.assertionFailed
  let place := man.triedPlace hash info.service
  let man ← man.evictTried hash place
  require (man.vvTried place == -1) AddrManFailure.assertionFailed
  pure (man.enterTried place nId)

/-- `Good_`, with the bucket at which the search starts. -/
def good (nRnd : ℕ) (man : CAddrMan) : Except AddrManFailure CAddrMan :=
  let man := { man with nLastGood := nTime }
  match man.find addr.ip with
  | none => .ok man
  | some (nId, info) =>
    if info.service ≠ addr then .ok man
    else
      let man := man.modifyInfo nId fun info =>
        { info with nLastSuccess := nTime, nLastTry := nTime, nAttempts := 0 }
      if info.fInTried then .ok man
      else
        let found := (List.range addrmanNewBucketCount).any fun n =>
          let nB := Fin.ofNat addrmanNewBucketCount (n + nRnd)
          man.vvNew (man.newPlace hash info.service nB) == nId
        if found then man.makeTried hash nId info else .ok man

/-- The update of an entry that `Add_` finds. -/
def refresh (addr : CAddress) (nTimePenalty nNow : ℤ) (info : CAddrInfo) : CAddrInfo :=
  let seen : ℤ := addr.nTime.toNat
  let known : ℤ := info.nTime.toNat
  let fCurrentlyOnline := nNow - seen < 24 * 60 * 60
  let nUpdateInterval : ℤ := if fCurrentlyOnline then 60 * 60 else 24 * 60 * 60
  { info with
    nTime :=
      if seen ≠ 0 ∧ (known = 0 ∨ known < seen - nUpdateInterval - nTimePenalty) then
        toUnsigned (max 0 (seen - nTimePenalty))
      else info.nTime
    nServices := info.nServices ||| addr.nServices }

/-- Whether `Add_` gives a found entry one more reference. -/
def addsReference (addr : CAddress) (nRnd : ℕ) (info : CAddrInfo) : Bool :=
  let seen : ℤ := addr.nTime.toNat
  let known : ℤ := info.nTime.toNat
  let nFactor := 2 ^ info.nRefCount.toNat
  !(decide (seen = 0 ∨ (known ≠ 0 ∧ seen ≤ known)) || info.fInTried ||
    info.nRefCount == addrmanNewBucketsPerAddress ||
    decide (1 < nFactor ∧ nRnd % nFactor ≠ 0))

def occupy : CAddrMan :=
  { man.modifyInfo nId fun info => { info with nRefCount := info.nRefCount + 1 } with
    vvNew := update man.vvNew place nId }

/-- Whether the entry at a place is overwritten: it is terrible, or it can spare the reference and
the new entry has none. -/
def spares (nNow : ℤ) (info : CAddrInfo) (nId : ℤ) (man : CAddrMan) :
    Except AddrManFailure Bool :=
  if nId = -1 then .ok true
  else
    match man.mapInfo.lookup nId with
    | none => .error .noEntry
    | some infoExisting => .ok (infoExisting.isTerrible nNow ||
        (decide (1 < infoExisting.nRefCount) && info.nRefCount == 0))

/-- The end of `Add_`: enter the entry in the bucket its source selects. -/
def enterNew (source : CNetAddr) (nNow : ℤ) (man : CAddrMan) : Except AddrManFailure CAddrMan :=
  match man.mapInfo.lookup nId with
  | none => .error .noEntry
  | some info =>
    let nUPlace := man.newPlace hash info.service (hash.newBucket man.nKey info.service source)
    if man.vvNew nUPlace = nId then .ok man
    else
      match man.spares nNow info (man.vvNew nUPlace) with
      | .error failure => .error failure
      | .ok true => do
          let man ← man.clearNew nUPlace
          pure (man.occupy nUPlace nId)
      | .ok false => if info.nRefCount = 0 then man.delete nId else .ok man

/-- `Add_`, with the time and the random number it draws. -/
def add (isRoutable : CNetAddr → Bool) (addr : CAddress) (source : CNetAddr)
    (nTimePenalty nNow : ℤ) (nRnd : ℕ) (man : CAddrMan) :
    Except AddrManFailure (Bool × CAddrMan) :=
  if !isRoutable addr.service.ip then .ok (false, man)
  else
    let nTimePenalty := if addr.service.ip = source then 0 else nTimePenalty
    match man.find addr.service.ip with
    | some (nId, info) =>
      let info := refresh addr nTimePenalty nNow info
      let man := man.modifyInfo nId (refresh addr nTimePenalty nNow)
      if addsReference addr nRnd info then do
        let man ← man.enterNew hash nId source nNow
        pure (false, man)
      else .ok (false, man)
    | none => do
        let nId := man.nIdCount
        let man := (man.create addr source).modifyInfo nId fun info =>
          { info with nTime := toUnsigned (max 0 (info.nTime.toNat - nTimePenalty)) }
        let man := { man with nNew := man.nNew + 1 }
        let man ← man.enterNew hash nId source nNow
        pure (true, man)

/-- Update the entry of exactly this address and port, if any. -/
def update (change : CAddrInfo → CAddrInfo) (man : CAddrMan) : CAddrMan :=
  match man.find addr.ip with
  | none => man
  | some (nId, info) => if info.service ≠ addr then man else man.modifyInfo nId change

def attempt (fCountFailure : Bool) (nTime : ℤ) (man : CAddrMan) : CAddrMan :=
  man.update addr fun info =>
    if fCountFailure ∧ info.nLastCountAttempt < man.nLastGood then
      { info with nLastTry := nTime, nLastCountAttempt := nTime, nAttempts := info.nAttempts + 1 }
    else { info with nLastTry := nTime }

def connected : CAddrMan :=
  man.update addr fun info =>
    if 20 * 60 < nTime - info.nTime.toNat then { info with nTime := toUnsigned nTime } else info

def setServices (nServices : UInt64) (man : CAddrMan) : CAddrMan :=
  man.update addr fun info => { info with nServices := nServices }

/-- The search of `Select_` in one table, along the places it visits and whether the entry there is
taken. -/
def selectFrom {P : Type} (table : P → ℤ) (man : CAddrMan) :
    List (P × Bool) → Except AddrManFailure (Option CAddrInfo)
  | [] => .ok none
  | (place, taken) :: visits =>
    if table place = -1 then selectFrom table man visits
    else
      match man.mapInfo.lookup (table place) with
      | none => .error .assertionFailed
      | some info => if taken then .ok (some info) else selectFrom table man visits

/-- `Select_`, with the random choices it makes. -/
def select (newOnly coin : Bool) (tried : List (TriedPlace × Bool)) (new : List (NewPlace × Bool))
    (man : CAddrMan) : Except AddrManFailure (Option CAddrInfo) :=
  if man.vRandom.length = 0 ∨ (newOnly ∧ man.nNew = 0) then .ok none
  else if !newOnly ∧ 0 < man.nTried ∧ (man.nNew = 0 ∨ coin) then selectFrom man.vvTried man tried
  else selectFrom man.vvNew man new

/-- The loop of `GetAddr_` from position `n`, with so many left. -/
def getAddrFrom (nNodes : ℕ) (nNow : ℤ) (nRnd : ℕ → ℕ) :
    ℕ → ℕ → List CAddress → CAddrMan → Except AddrManFailure (List CAddress × CAddrMan)
  | 0, _, vAddr, man => .ok (vAddr, man)
  | left + 1, n, vAddr, man =>
    if nNodes ≤ vAddr.length then .ok (vAddr, man)
    else do
      let man ← man.swapRandom n (nRnd n % (man.vRandom.length - n) + n : ℕ)
      match (man.vRandom[n]?).bind man.mapInfo.lookup with
      | none => .error .assertionFailed
      | some ai =>
        let vAddr := if ai.isTerrible nNow then vAddr else vAddr ++ [ai.toAddress]
        getAddrFrom nNodes nNow nRnd left (n + 1) vAddr man

def getAddr (nNow : ℤ) (nRnd : ℕ → ℕ) (man : CAddrMan) :
    Except AddrManFailure (List CAddress × CAddrMan) :=
  let nNodes := min (addrmanGetAddrMaxPct * man.vRandom.length / 100) addrmanGetAddrMax
  man.getAddrFrom nNodes nNow nRnd man.vRandom.length 0 []

end

end CAddrMan

end Catoshi
