/-
Reading values off a byte stream that fails at its end, and the round trip: a reader reads a byte
string if it takes it off every stream that begins with it.
-/
import Mathlib.Data.Vector.Basic
import Catoshi.Lib.ByteOrder

namespace ByteStream

open ByteOrder

abbrev Reader := StateT Bytes Option

def readBytes (count : ℕ) : Reader Bytes := fun stream =>
  if count ≤ stream.length then some (stream.take count, stream.drop count) else none

def readMany {A : Type} (reader : Reader A) : ℕ → Reader (List A)
  | 0 => pure []
  | count + 1 => do
      let head ← reader
      let tail ← readMany reader count
      return head :: tail

/-- The reader takes the bytes of a value off any stream. -/
def Reads {A : Type} (reader : Reader A) (bytes : Bytes) (value : A) : Prop :=
  ∀ rest, reader (bytes ++ rest) = some (value, rest)

variable {A B : Type} {reader : Reader A} {bytes bytes' : Bytes} {value : A} {value' : B}

theorem Reads.pure (value : A) : Reads (pure value) [] value := fun _ => rfl

theorem Reads.lift {check : Option A} (hcheck : check = some value) :
    Reads (StateT.lift check) [] value := by
  intro rest
  rw [hcheck]
  rfl

variable {next : A → Reader B} {width n : ℕ}

theorem Reads.bind (hfst : Reads reader bytes value) (hnext : Reads (next value) bytes' value') :
    Reads (reader >>= next) (bytes ++ bytes') value' := by
  intro rest
  change (reader (bytes ++ bytes' ++ rest)).bind _ = _
  rw [List.append_assoc, hfst]
  exact hnext rest

theorem Reads.last (hfst : Reads reader bytes value) (hnext : Reads (next value) [] value') :
    Reads (reader >>= next) bytes value' := by
  have hboth := hfst.bind hnext
  rwa [List.append_nil] at hboth

theorem Reads.map (hreads : Reads reader bytes value) (f : A → B) :
    Reads (f <$> reader) bytes (f value) := by
  intro rest
  change (reader (bytes ++ rest)).bind _ = _
  rw [hreads]
  rfl

/-- Values read back one by one are read back together. -/
theorem reads_readMany {write : A → Bytes} {values : List A}
    (hreads : ∀ value ∈ values, Reads reader (write value) value) :
    Reads (readMany reader values.length) (values.flatMap write) values := by
  induction values with
  | nil => exact Reads.pure []
  | cons head tail ih =>
    apply (hreads head List.mem_cons_self).bind
    exact (ih (List.forall_mem_cons.1 hreads).2).last (Reads.pure (head :: tail))

theorem reads_readBytes {count : ℕ} (hlen : bytes.length = count) :
    Reads (readBytes count) bytes bytes := by
  intro rest
  subst hlen
  simp [readBytes]

theorem reads_littleEndian (hn : n < 256 ^ width) :
    Reads (ofLittleEndian <$> readBytes width) (littleEndian width n) n := by
  have hreads := (reads_readBytes (length_littleEndian width n)).map ofLittleEndian
  rwa [ofLittleEndian_littleEndian hn] at hreads

/-- What is read is what is written for the number. -/
theorem eq_of_read_littleEndian {rest : Bytes}
    (hread : (ofLittleEndian <$> readBytes width) bytes = some (n, rest)) :
    bytes = littleEndian width n ++ rest ∧ n < 256 ^ width := by
  change (readBytes width bytes).bind _ = _ at hread
  rw [readBytes] at hread
  split_ifs at hread with hlen
  · cases hread
    have htake : (bytes.take width).length = width := by simpa using hlen
    have hcode := littleEndian_ofLittleEndian (bytes.take width)
    have hlt := ofLittleEndian_lt (bytes.take width)
    rw [htake] at hcode hlt
    exact ⟨by rw [hcode, List.take_append_drop], hlt⟩
  · cases hread

/-- The reader takes just the codes of the numbers up to a limit, and no code begins another. -/
structure Coding (limit : ℕ) (reader : Reader ℕ) (write : ℕ → Bytes) : Prop where
  reads : ∀ n ≤ limit, Reads reader (write n) n
  apart : ∀ n ≤ limit, ∀ m ≤ limit, write n <+: write m → n = m
  written : ∀ bytes n rest, reader bytes = some (n, rest) → bytes = write n ++ rest ∧ n ≤ limit

theorem Coding.of_reads {limit : ℕ} {reader : Reader ℕ} {write : ℕ → Bytes}
    (hreads : ∀ n ≤ limit, Reads reader (write n) n)
    (hwritten : ∀ bytes n rest, reader bytes = some (n, rest) →
      bytes = write n ++ rest ∧ n ≤ limit) : Coding limit reader write := by
  refine ⟨hreads, ?_, hwritten⟩
  rintro n hn m hm ⟨rest, hrest⟩
  have hread := hreads m hm []
  rw [List.append_nil, ← hrest, hreads n hn rest] at hread
  exact (Prod.mk.inj (Option.some.inj hread)).1

theorem reads_bigEndian (hn : n < 256 ^ width) :
    Reads (ofBigEndian <$> readBytes width) (bigEndian width n) n := by
  have hreads := (reads_readBytes (length_bigEndian width n)).map ofBigEndian
  rwa [ofBigEndian_bigEndian hn] at hreads

end ByteStream

/-!
### Counts

Counts in one, three, five or nine bytes, the shortest form that holds the number.  A
reader refuses longer forms and counts above its limit.
-/

namespace CompactSize

open ByteOrder ByteStream

def write (n : ℕ) : Bytes :=
  if n < 253 then littleEndian 1 n
  else if n < 2 ^ 16 then littleEndian 1 253 ++ littleEndian 2 n
  else if n < 2 ^ 32 then littleEndian 1 254 ++ littleEndian 4 n
  else littleEndian 1 255 ++ littleEndian 8 n

/-- The number after a mark, refused if a shorter form would hold it. -/
def readAtLeast (least width : ℕ) : Reader ℕ := do
  let n ← ofLittleEndian <$> readBytes width
  if n < least then failure
  return n

def read (limit : ℕ) : Reader ℕ := do
  let mark ← ofLittleEndian <$> readBytes 1
  let n ← if mark < 253 then pure mark
    else if mark = 253 then readAtLeast 253 2
    else if mark = 254 then readAtLeast (2 ^ 16) 4
    else readAtLeast (2 ^ 32) 8
  if limit < n then failure
  return n

variable {limit least width n : ℕ} {bytes rest : Bytes}

theorem reads_readAtLeast (hleast : least ≤ n) (hn : n < 256 ^ width) :
    Reads (readAtLeast least width) (littleEndian width n) n := by
  apply (reads_littleEndian hn).last
  simpa [not_lt.2 hleast] using Reads.pure n

/-- A number up to the limit is read back. -/
theorem reads_write (hlimit : n ≤ limit) (hn : n < 2 ^ 64) : Reads (read limit) (write n) n := by
  have hlast : Reads (if limit < n then failure else pure n : Reader ℕ) [] n := by
    rw [if_neg (not_lt.2 hlimit)]
    exact Reads.pure n
  rw [write]
  split_ifs with hone hthree hfive
  · apply (reads_littleEndian (by omega)).last
    rw [if_pos hone]
    exact (Reads.pure n).last hlast
  · exact (reads_littleEndian (by omega)).bind
      ((reads_readAtLeast (not_lt.1 hone) (by omega)).last hlast)
  · exact (reads_littleEndian (by omega)).bind
      ((reads_readAtLeast (not_lt.1 hthree) (by omega)).last hlast)
  · exact (reads_littleEndian (by omega)).bind
      ((reads_readAtLeast (not_lt.1 hfive) (by omega)).last hlast)

theorem eq_of_guarded {reader : Reader ℕ} {bad : ℕ → Prop} [DecidablePred bad]
    (hread : (reader >>= fun n => if bad n then failure else pure n) bytes = some (n, rest)) :
    reader bytes = some (n, rest) ∧ ¬ bad n := by
  obtain ⟨⟨number, left⟩, hnumber, hcheck⟩ := Option.bind_eq_some_iff.1 hread
  dsimp only at hcheck
  split_ifs at hcheck with hbad
  · cases hcheck
  · cases hcheck
    exact ⟨hnumber, hbad⟩

theorem eq_of_readAtLeast (hread : readAtLeast least width bytes = some (n, rest)) :
    bytes = littleEndian width n ++ rest ∧ ¬ n < least ∧ n < 256 ^ width := by
  obtain ⟨hnumber, hleast⟩ := eq_of_guarded hread
  obtain ⟨hbytes, hlt⟩ := eq_of_read_littleEndian hnumber
  exact ⟨hbytes, hleast, hlt⟩

/-- Only the shortest form of a number up to the limit is read. -/
theorem eq_of_read (hread : read limit bytes = some (n, rest)) :
    bytes = write n ++ rest ∧ n ≤ limit := by
  obtain ⟨⟨mark, stream⟩, hmark, hform⟩ := Option.bind_eq_some_iff.1 hread
  obtain ⟨rfl, hlt⟩ := eq_of_read_littleEndian hmark
  dsimp only at hform
  split_ifs at hform with hone hthree hfive
  all_goals
    obtain ⟨hnumber, hlimit⟩ := eq_of_guarded hform
    refine ⟨?_, not_lt.1 hlimit⟩
    rw [write]
  · cases hnumber
    rw [if_pos hone]
  all_goals obtain ⟨rfl, hleast, hmost⟩ := eq_of_readAtLeast hnumber
  · rw [if_neg hleast, if_pos (by omega), hthree, List.append_assoc]
  · rw [if_neg (by omega), if_neg hleast, if_pos (by omega), hfive, List.append_assoc]
  · obtain rfl : mark = 255 := by omega
    rw [if_neg (by omega), if_neg (by omega), if_neg hleast, List.append_assoc]

end CompactSize

/-!
### Numbers of any size

They are written in groups of seven bits, the highest group first.  Every byte but the
last is marked.  A marked group stands for one more than its bits say, so that no
number has two codes.
-/

namespace VarInt

open ByteStream

/-- The marked bytes of a number before another group. -/
def markedGroups : ℕ → ℕ → Bytes
  | 0, n => [UInt8.ofNat (n % 128 + 128)]
  | fuel + 1, n =>
    if n < 128 then [UInt8.ofNat (n + 128)]
    else markedGroups fuel (n / 128 - 1) ++ [UInt8.ofNat (n % 128 + 128)]

def write (n : ℕ) : Bytes :=
  if n < 128 then [UInt8.ofNat n]
  else markedGroups n (n / 128 - 1) ++ [UInt8.ofNat (n % 128)]

/-- Read on after some groups. No number above the limit is read. -/
def readOn (limit : ℕ) : ℕ → Reader ℕ
  | _, [] => none
  | n, byte :: rest =>
    if limit / 128 < n then none
    else if byte.toNat < 128 then some (n * 128 + byte.toNat, rest)
    else if n * 128 + byte.toNat % 128 = limit then none
    else readOn limit (n * 128 + byte.toNat % 128 + 1) rest

def read (limit : ℕ) : Reader ℕ := readOn limit 0

variable {low high limit n : ℕ}

theorem toNat_marked (hlow : low < 128) : (UInt8.ofNat (low + 128)).toNat = low + 128 := by
  rw [UInt8.toNat_ofNat']
  omega

theorem readOn_marked (high : ℕ) (rest : Bytes) (hlow : low < 128)
    (hbound : high * 128 + low < limit) :
    readOn limit high (UInt8.ofNat (low + 128) :: rest) =
      readOn limit (high * 128 + low + 1) rest := by
  have hbits : (low + 128) % 128 = low := by omega
  have hhigh : ¬ limit / 128 < high := by omega
  rw [readOn, if_neg hhigh, toNat_marked hlow, if_neg (by omega), hbits, if_neg hbound.ne]

theorem readOn_last (high : ℕ) (rest : Bytes) (hlow : low < 128)
    (hbound : high * 128 + low ≤ limit) :
    readOn limit high (UInt8.ofNat low :: rest) = some (high * 128 + low, rest) := by
  have hbyte : (UInt8.ofNat low).toNat = low := by
    rw [UInt8.toNat_ofNat']
    omega
  have hhigh : ¬ limit / 128 < high := by omega
  rw [readOn, if_neg hhigh, hbyte, if_pos hlow]

/-- The groups read when the number is the given one. -/
def before : ℕ → Bytes
  | 0 => []
  | n + 1 => markedGroups n n

theorem markedGroups_of_le {fuel : ℕ} (hfuel : n ≤ fuel) :
    markedGroups fuel n = before (n + 1) := by
  rw [before]
  induction fuel using Nat.strong_induction_on generalizing n with
  | _ fuel ih =>
    cases fuel with
    | zero => rw [Nat.le_zero.1 hfuel]
    | succ fuel =>
      cases n with
      | zero => rfl
      | succ n =>
        rw [markedGroups, markedGroups]
        split
        · rfl
        · rw [ih fuel (by omega) (by omega), ih n (by omega) (by omega)]

section

variable (hlow : low < 128)

include hlow

theorem groups_eq {fuel : ℕ} (hfuel : high ≤ fuel + 1) (byte : ℕ → UInt8) :
    (if high * 128 + low < 128 then [byte (high * 128 + low)]
      else markedGroups fuel ((high * 128 + low) / 128 - 1) ++
        [byte ((high * 128 + low) % 128)]) = before high ++ [byte low] := by
  have hdiv : (high * 128 + low) / 128 = high := by omega
  have hmod : (high * 128 + low) % 128 = low := by omega
  rw [hdiv, hmod]
  cases high with
  | zero => simp [hlow, before]
  | succ high => rw [if_neg (by omega), markedGroups_of_le (by omega), Nat.add_sub_cancel]

theorem before_group :
    before (high * 128 + low + 1) = before high ++ [UInt8.ofNat (low + 128)] := by
  rw [← markedGroups_of_le (Nat.le_succ _), markedGroups]
  exact groups_eq hlow (by omega) fun n => UInt8.ofNat (n + 128)

theorem write_group : write (high * 128 + low) = before high ++ [UInt8.ofNat low] :=
  groups_eq hlow (by omega) UInt8.ofNat

end

theorem readOn_before (hhigh : high ≤ limit) (rest : Bytes) :
    readOn limit 0 (before high ++ rest) = readOn limit high rest := by
  induction high using Nat.strong_induction_on generalizing rest with
  | _ high ih =>
    cases high with
    | zero => rfl
    | succ n =>
      have hlow := Nat.mod_lt n (by decide : 0 < 128)
      have hgroup := readOn_marked (n / 128) rest hlow (by omega : _ < limit)
      rw [← Nat.div_add_mod' n 128, before_group hlow, List.append_assoc,
        ih _ (by omega) (by omega)]
      exact hgroup

/-- A number up to the limit is read back. -/
theorem reads_write (hlimit : n ≤ limit) : Reads (read limit) (write n) n := by
  intro rest
  have hlow := Nat.mod_lt n (by decide : 0 < 128)
  rw [← Nat.div_add_mod' n 128, write_group hlow, List.append_assoc, read, readOn_before (by omega)]
  exact readOn_last (n / 128) rest hlow (by omega)

/-- What is read is what is written for the number. -/
theorem eq_of_readOn {bytes rest : Bytes} (hlimit : limit % 128 = 127)
    (hread : readOn limit high bytes = some (n, rest)) :
    before high ++ bytes = write n ++ rest ∧ n ≤ limit := by
  induction bytes generalizing high with
  | nil => cases hread
  | cons byte bytes ih =>
    have hbyte := byte.toNat_lt
    rw [readOn] at hread
    split_ifs at hread with hhigh hlast hfull
    · cases hread
      rw [write_group hlast, UInt8.ofNat_toNat]
      exact ⟨by simp, by omega⟩
    · obtain ⟨hcode, hn⟩ := ih hread
      have hmarked : byte.toNat % 128 + 128 = byte.toNat := by omega
      rw [before_group (Nat.mod_lt _ (by decide)), hmarked, UInt8.ofNat_toNat] at hcode
      exact ⟨by simpa using hcode, hn⟩

end VarInt
