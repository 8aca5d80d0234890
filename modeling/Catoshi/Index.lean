/-
The address, spent and timestamp indexes (`index.h`) and the batches written to them (`txdb.cpp`).
-/
import Catoshi.Consensus

namespace Catoshi

/-- One receive or spend of an address. -/
structure CAddressIndexKey where
  type : ℕ
  hashBytes : Uint160
  blockHeight : ℕ
  txindex : ℕ
  txhash : Uint256
  index : ℕ
  spending : Bool
deriving DecidableEq, Repr

/-- An unspent output of an address. -/
structure CAddressUnspentKey where
  type : ℕ
  hashBytes : Uint160
  txhash : Uint256
  index : ℕ
deriving DecidableEq, Repr

structure CAddressUnspentValue where
  satoshis : CAmount
  script : CScript
  blockHeight : ℕ
deriving DecidableEq, Repr

/-- The default constructor, which has the key erased. -/
def CAddressUnspentValue.null : CAddressUnspentValue := ⟨-1, [], 0⟩

def CAddressUnspentValue.isNull (value : CAddressUnspentValue) : Bool :=
  value.satoshis == -1

structure CSpentIndexKey where
  txid : Uint256
  outputIndex : ℕ
deriving DecidableEq, Repr

structure CSpentIndexValue where
  txid : Uint256
  inputIndex : ℕ
  blockHeight : ℕ
  satoshis : CAmount
  addressType : ℕ
  addressHash : Uint160
deriving DecidableEq, Repr

/-- The default constructor, which has the key erased. -/
def CSpentIndexValue.null : CSpentIndexValue :=
  ⟨BaseBlob.null 32, 0, 0, 0, 0, BaseBlob.null 20⟩

def CSpentIndexValue.isNull (value : CSpentIndexValue) : Bool := value.txid.isNull

structure CTimestampIndexKey where
  timestamp : UInt32
  blockHash : Uint256
deriving DecidableEq, Repr

/-- The index tables of the block tree database. -/
@[ext]
structure CBlockTreeDB where
  addressIndex : Finmap fun _ : CAddressIndexKey => CAmount
  addressUnspentIndex : Finmap fun _ : CAddressUnspentKey => CAddressUnspentValue
  spentIndex : Finmap fun _ : CSpentIndexKey => CSpentIndexValue
  timestampIndex : Finmap fun _ : CTimestampIndexKey => ℤ
  timestampBlockIndex : Finmap fun _ : Uint256 => UInt32

def CBlockTreeDB.empty : CBlockTreeDB := ⟨∅, ∅, ∅, ∅, ∅⟩

/-- The index changes `ConnectBlock` and `DisconnectBlock` collect. -/
structure IndexChanges where
  addressIndex : List (CAddressIndexKey × CAmount)
  addressUnspentIndex : List (CAddressUnspentKey × CAddressUnspentValue)
  spentIndex : List (CSpentIndexKey × CSpentIndexValue)
deriving DecidableEq

namespace IndexChanges

def empty : IndexChanges := ⟨[], [], []⟩

variable (first second : IndexChanges)

def append : IndexChanges :=
  ⟨first.addressIndex ++ second.addressIndex,
    first.addressUnspentIndex ++ second.addressUnspentIndex,
    first.spentIndex ++ second.spentIndex⟩

instance : Append IndexChanges := ⟨append⟩

@[simp]
theorem addressIndex_append :
    (first ++ second).addressIndex = first.addressIndex ++ second.addressIndex := rfl

@[simp]
theorem addressUnspentIndex_append : (first ++ second).addressUnspentIndex =
      first.addressUnspentIndex ++ second.addressUnspentIndex := rfl

@[simp]
theorem spentIndex_append :
    (first ++ second).spentIndex = first.spentIndex ++ second.spentIndex := rfl

theorem append_assoc (first second third : IndexChanges) :
    first ++ second ++ third = first ++ (second ++ third) := by
  change append (append first second) third = append first (append second third)
  simp [append]

@[simp]
theorem append_empty (changes : IndexChanges) : changes ++ empty = changes := by
  change append changes empty = changes
  simp [append, empty]

@[simp]
theorem empty_append (changes : IndexChanges) : empty ++ changes = changes := by
  change append empty changes = changes
  simp [append, empty]

end IndexChanges

namespace CBlockTreeDB

/-- `UpdateAddressUnspentIndex`: a null value erases. -/
def unspentWrites (vect : List (CAddressUnspentKey × CAddressUnspentValue)) :
    List (CAddressUnspentKey × Option CAddressUnspentValue) :=
  vect.map fun change =>
    (change.1, if change.2.isNull then none else some change.2)

/-- `UpdateSpentIndex`: a null value erases. -/
def spentWrites (vect : List (CSpentIndexKey × CSpentIndexValue)) :
    List (CSpentIndexKey × Option CSpentIndexValue) :=
  vect.map fun change =>
    (change.1, if change.2.isNull then none else some change.2)

variable (db : CBlockTreeDB)

def updateAddressUnspentIndex
    (vect : List (CAddressUnspentKey × CAddressUnspentValue)) : CBlockTreeDB :=
  { db with
    addressUnspentIndex := WriteLog.store (unspentWrites vect) db.addressUnspentIndex }

def updateSpentIndex (vect : List (CSpentIndexKey × CSpentIndexValue)) : CBlockTreeDB :=
  { db with spentIndex := WriteLog.store (spentWrites vect) db.spentIndex }

def writeAddressIndex (vect : List (CAddressIndexKey × CAmount)) : CBlockTreeDB :=
  { db with
    addressIndex :=
      WriteLog.store (vect.map fun change => (change.1, some change.2)) db.addressIndex }

def eraseAddressIndex (vect : List (CAddressIndexKey × CAmount)) : CBlockTreeDB :=
  { db with
    addressIndex := WriteLog.store (vect.map fun change => (change.1, none)) db.addressIndex }

def readTimestampBlockIndex (hash : Uint256) : Option UInt32 :=
  db.timestampBlockIndex.lookup hash

def writeTimestampIndex (key : CTimestampIndexKey) : CBlockTreeDB :=
  { db with timestampIndex := db.timestampIndex.insert key 0 }

def writeTimestampBlockIndex (hash : Uint256) (timestamp : UInt32) : CBlockTreeDB :=
  { db with timestampBlockIndex := db.timestampBlockIndex.insert hash timestamp }

end CBlockTreeDB

end Catoshi
