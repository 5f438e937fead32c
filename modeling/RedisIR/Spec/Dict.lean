import RedisIR.Lib.Buckets
import RedisIR.Lib.CLib

/-! `dict.c`: a hash table that moves its entries to a second one bucket by bucket. `none` is
an access outside of a table, a failed assertion or a loop that does not end. Allocations
succeed, with the size that is asked for. -/

namespace RedisIR

open CLib Buckets

def DICT_HT_INITIAL_SIZE : ℕ := 4

def LONG_MAX : ℕ := 2 ^ 63 - 1

def dict_force_resize_ratio : ℕ := 5

/-- `sizeof(dictEntry*)` -/
def pointerSize : ℕ := 8

structure Slots (K V : Type*) where
  count : ℕ
  chain : ℕ → List (K × V)

structure Dictht (K V : Type*) where
  table : Option (Slots K V)
  size : ℕ
  sizemask : ℕ
  used : ℕ

/-- `rehashidx` is `none` for -1. -/
structure Dict (K V : Type*) where
  ht0 : Dictht K V
  ht1 : Dictht K V
  rehashidx : Option ℕ
  iterators : ℕ

section Tables

variable {K V : Type*}

/-- `_dictReset` -/
def dictReset : Dictht K V := ⟨none, 0, 0, 0⟩

/-- `_dictInit` -/
def dictInit : Dict K V := ⟨dictReset, dictReset, none, 0⟩

def dictCreate : Dict K V := dictInit

def dictIsRehashing (d : Dict K V) : Bool := d.rehashidx.isSome

def dictSize (d : Dict K V) : ℕ := d.ht0.used + d.ht1.used

/-- `t->table[i]` -/
def Dictht.read (t : Dictht K V) (i : ℕ) : Option (List (K × V)) :=
  t.table.bind fun s => if i < s.count then some (s.chain i) else none

/-- `t->table[i] = c` -/
def Dictht.write (t : Dictht K V) (i : ℕ) (c : List (K × V)) : Option (Dictht K V) :=
  t.table.bind fun s =>
    if i < s.count then some { t with table := some { s with chain := Function.update s.chain i c } } else none

/-- `zcalloc`; the number of bytes is an `unsigned long`. -/
def zcallocSlots (realsize : ℕ) : Slots K V := ⟨realsize * pointerSize % 2 ^ 64 / pointerSize, fun _ => []⟩

/-- The loop of `_dictNextPower`; 64 rounds are enough. -/
def nextPowerLoop : ℕ → ℕ → ℕ → ℕ
  | 0, i, _ => i
  | fuel + 1, i, size => if i ≥ size then i else nextPowerLoop fuel (i * 2) size

/-- `_dictNextPower` -/
def dictNextPower (size : ℕ) : ℕ :=
  if size ≥ LONG_MAX then LONG_MAX + 1 else nextPowerLoop 64 DICT_HT_INITIAL_SIZE size

/-- `dictExpand`, which returns `DICT_OK` or not. -/
def dictExpand (d : Dict K V) (size : ℕ) : Dict K V × Bool :=
  if dictIsRehashing d ∨ d.ht0.used > size then (d, false)
  else
    let realsize := dictNextPower size
    if realsize = d.ht0.size then (d, false)
    else
      let n : Dictht K V := ⟨some (zcallocSlots realsize), realsize, realsize - 1, 0⟩
      if d.ht0.table.isNone then ({ d with ht0 := n }, true)
      else ({ d with ht1 := n, rehashidx := some 0 }, true)

/-- `dictResize`; `minimal` is an `int`. -/
def dictResize (dict_can_resize : Bool) (d : Dict K V) : Dict K V × Bool :=
  if !dict_can_resize || dictIsRehashing d then (d, false)
  else
    let minimal := wrapInt d.ht0.used
    let minimal := if minimal < DICT_HT_INITIAL_SIZE then (DICT_HT_INITIAL_SIZE : ℤ) else minimal
    dictExpand d minimal.toNat

/-- `_dictExpandIfNeeded` -/
def dictExpandIfNeeded (dict_can_resize : Bool) (d : Dict K V) : Dict K V × Bool :=
  if dictIsRehashing d then (d, true)
  else if d.ht0.size = 0 then dictExpand d DICT_HT_INITIAL_SIZE
  else if d.ht0.used ≥ d.ht0.size ∧ (dict_can_resize ∨ d.ht0.used / d.ht0.size > dict_force_resize_ratio) then
    dictExpand d (d.ht0.used * 2)
  else (d, true)

/-! ### Scanning -/

/-- The loop of `rev`, with a bound on its rounds. -/
def revLoop : ℕ → ℕ → BitVec 64 → BitVec 64 → BitVec 64
  | 0, _, _, v => v
  | fuel + 1, s, mask, v =>
    let s := s >>> 1
    if s > 0 then
      let mask := mask ^^^ (mask <<< s)
      revLoop fuel s mask (((v >>> s) &&& mask) ||| ((v <<< s) &&& ~~~mask))
    else v

def rev (v : BitVec 64) : BitVec 64 := revLoop 7 64 (~~~0) v

/-- `v |= ~m; v = rev(v); v++; v = rev(v);` -/
def nextCursor (m : ℕ) (v : BitVec 64) : BitVec 64 := rev (rev (v ||| ~~~BitVec.ofNat 64 m) + 1)

/-- The loop over the larger table: the cursor that it ends with and the entries that it emits.
It has at most as many rounds as the table has buckets. -/
def scanLarger (m0 : ℕ) (t1 : Dictht K V) : ℕ → BitVec 64 → Option (BitVec 64 × List (K × V))
  | 0, _ => none
  | fuel + 1, v =>
    (t1.read (v.toNat &&& t1.sizemask)).bind fun de =>
      let v := nextCursor t1.sizemask v
      if v &&& (BitVec.ofNat 64 m0 ^^^ BitVec.ofNat 64 t1.sizemask) ≠ 0 then
        (scanLarger m0 t1 fuel v).map fun r => (r.1, de ++ r.2)
      else some (v, de)

/-- `dictScan`: the next cursor, and the entries that the callback is called with. -/
def dictScan (d : Dict K V) (v : BitVec 64) : Option (BitVec 64 × List (K × V)) :=
  if dictSize d = 0 then some (0, [])
  else if ¬ dictIsRehashing d then
    (d.ht0.read (v.toNat &&& d.ht0.sizemask)).map fun de => (nextCursor d.ht0.sizemask v, de)
  else
    let (t0, t1) := if d.ht0.size > d.ht1.size then (d.ht1, d.ht0) else (d.ht0, d.ht1)
    (t0.read (v.toNat &&& t0.sizemask)).bind fun de =>
      (scanLarger t0.sizemask t1 t1.size v).map fun r => (r.1, de ++ r.2)

end Tables

section Operations

variable {K V : Type*} [DecidableEq K] (hash : K → BitVec 64)

/-- `dictHashKey(d, key) & t->sizemask` -/
def slot (t : Dictht K V) (key : K) : ℕ := (hash key).toNat &&& t.sizemask

/-! ### Moving entries -/

def moveEntry (d : Dict K V) (de : K × V) : Option (Dict K V) :=
  let h := slot hash d.ht1 de.1
  (d.ht1.read h).bind fun c =>
    (d.ht1.write h (de :: c)).map fun ht1 =>
      { d with ht0 := { d.ht0 with used := d.ht0.used - 1 }, ht1 := { ht1 with used := ht1.used + 1 } }

def moveChain : List (K × V) → Dict K V → Option (Dict K V)
  | [], d => some d
  | de :: c, d => (moveEntry hash d de).bind (moveChain c)

/-- What the loop over empty buckets ends with: the limit on them, or a chain with what is
left of the limit. -/
inductive Skipped (K V : Type*)
  | limit (rehashidx : ℕ)
  | found (rehashidx visits : ℕ) (de : List (K × V))

/-- The loop over empty buckets. After `visits` more of them `--empty_visits` is not zero yet. -/
def skipEmpty (t : Dictht K V) : ℕ → ℕ → Option (Skipped K V)
  | 0, rehashidx =>
    (t.read rehashidx).map fun de => if de.isEmpty then .limit (rehashidx + 1) else .found rehashidx 0 de
  | visits + 1, rehashidx =>
    (t.read rehashidx).bind fun de =>
      if de.isEmpty then skipEmpty t visits (rehashidx + 1) else some (.found rehashidx (visits + 1) de)

/-- The loop of `dictRehash` with `n` rounds left, and whether it has ended at the limit. -/
def rehashLoop : ℕ → ℕ → ℕ → Dict K V → Option (Bool × Dict K V)
  | 0, _, _, d => some (false, d)
  | n + 1, visits, rehashidx, d =>
    if d.ht0.used = 0 then some (false, d)
    else if ¬ d.ht0.size > rehashidx then none
    else
      (skipEmpty d.ht0 visits rehashidx).bind fun
        | .limit rehashidx => some (true, { d with rehashidx := some rehashidx })
        | .found rehashidx visits de =>
          (moveChain hash de d).bind fun d =>
            (d.ht0.write rehashidx []).bind fun ht0 =>
              rehashLoop n visits (rehashidx + 1) { d with ht0 := ht0, rehashidx := some (rehashidx + 1) }

/-- `dictRehash`; `n` and `n*10` are of type `int`, and both count down past zero. -/
def dictRehash (d : Dict K V) (n : ℤ) : Option (Dict K V × Bool) :=
  match d.rehashidx with
  | none => some (d, false)
  | some rehashidx =>
    (rehashLoop hash (n % 2 ^ 32).toNat ((n * 10 - 1) % 2 ^ 32).toNat rehashidx d).map fun r =>
      if r.1 then (r.2, true)
      else if r.2.ht0.used = 0 then ({ r.2 with ht0 := r.2.ht1, ht1 := dictReset, rehashidx := none }, false)
      else (r.2, true)

/-- `_dictRehashStep` -/
def dictRehashStep (d : Dict K V) : Option (Dict K V) :=
  if d.iterators = 0 then (dictRehash hash d 1).map Prod.fst else some d

/-- `if (dictIsRehashing(d)) _dictRehashStep(d);` -/
def rehashStepIfRehashing (d : Dict K V) : Option (Dict K V) :=
  if dictIsRehashing d then dictRehashStep hash d else some d

/-! ### Entries -/

/-- What `_dictKeyIndex` finds: an index for a new entry, in the table that new entries go to;
an entry with the key, in the second table or not; or nothing, since the expansion failed. -/
inductive KeyIndex
  | free (idx : ℕ)
  | existing (second : Bool) (idx : ℕ)
  | failed
  deriving DecidableEq

/-- `_dictKeyIndex` -/
def dictKeyIndex (dict_can_resize : Bool) (d : Dict K V) (key : K) : Option (Dict K V × KeyIndex) :=
  let (d, ok) := dictExpandIfNeeded dict_can_resize d
  if ¬ ok then some (d, .failed)
  else
    let idx := slot hash d.ht0 key
    (d.ht0.read idx).bind fun he =>
      if he.any (fun e => key = e.1) then some (d, .existing false idx)
      else if ¬ dictIsRehashing d then some (d, .free idx)
      else
        let idx := slot hash d.ht1 key
        (d.ht1.read idx).map fun he =>
          if he.any (fun e => key = e.1) then (d, .existing true idx) else (d, .free idx)

def Dictht.insertTop (t : Dictht K V) (idx : ℕ) (entry : K × V) : Option (Dictht K V) :=
  (t.read idx).bind fun c => (t.write idx (entry :: c)).map fun t => { t with used := t.used + 1 }

/-- `dictAddRaw`, with the value that its caller puts into the new entry. -/
def dictAddRaw (dict_can_resize : Bool) (d : Dict K V) (key : K) (val : V) : Option (Dict K V × KeyIndex) :=
  (rehashStepIfRehashing hash d).bind fun d =>
    (dictKeyIndex hash dict_can_resize d key).bind fun
      | (d, .free idx) =>
        if dictIsRehashing d then
          (d.ht1.insertTop idx (key, val)).map fun ht1 => ({ d with ht1 := ht1 }, .free idx)
        else (d.ht0.insertTop idx (key, val)).map fun ht0 => ({ d with ht0 := ht0 }, .free idx)
      | r => some r

/-- `dictAdd`, which returns `DICT_OK` or not. -/
def dictAdd (dict_can_resize : Bool) (d : Dict K V) (key : K) (val : V) : Option (Dict K V × Bool) :=
  (dictAddRaw hash dict_can_resize d key val).map fun
    | (d, .free _) => (d, true)
    | (d, _) => (d, false)

/-- `dictSetVal(d, existing, val)` -/
def Dictht.setExisting (t : Dictht K V) (idx : ℕ) (key : K) (val : V) : Option (Dictht K V) :=
  (t.read idx).bind fun c => t.write idx (setVal key val c)

/-- `dictReplace`; without an existing entry it follows a null pointer. -/
def dictReplace (dict_can_resize : Bool) (d : Dict K V) (key : K) (val : V) : Option (Dict K V × Bool) :=
  (dictAddRaw hash dict_can_resize d key val).bind fun
    | (d, .free _) => some (d, true)
    | (d, .existing false idx) => (d.ht0.setExisting idx key val).map fun ht0 => ({ d with ht0 := ht0 }, false)
    | (d, .existing true idx) => (d.ht1.setExisting idx key val).map fun ht1 => ({ d with ht1 := ht1 }, false)
    | (_, .failed) => none

/-- One round of the loop of `dictGenericDelete`. -/
def Dictht.unlinkKey (t : Dictht K V) (key : K) : Option (Option (Dictht K V × (K × V))) :=
  let idx := slot hash t key
  (t.read idx).bind fun he =>
    match unlink key he with
    | none => some none
    | some (e, rest) => (t.write idx rest).map fun t => some ({ t with used := t.used - 1 }, e)

/-- `dictGenericDelete`: the entry that has been taken out, if there is one. -/
def dictGenericDelete (d : Dict K V) (key : K) : Option (Dict K V × Option (K × V)) :=
  if d.ht0.used = 0 ∧ d.ht1.used = 0 then some (d, none)
  else
    (rehashStepIfRehashing hash d).bind fun d =>
      (d.ht0.unlinkKey hash key).bind fun
        | some (ht0, he) => some ({ d with ht0 := ht0 }, some he)
        | none =>
          if ¬ dictIsRehashing d then some (d, none)
          else
            (d.ht1.unlinkKey hash key).map fun
              | some (ht1, he) => ({ d with ht1 := ht1 }, some he)
              | none => (d, none)

def dictDelete (d : Dict K V) (key : K) : Option (Dict K V × Bool) :=
  (dictGenericDelete hash d key).map fun r => (r.1, r.2.isSome)

def dictUnlink (d : Dict K V) (key : K) : Option (Dict K V × Option (K × V)) := dictGenericDelete hash d key

/-- One round of the loop of `dictFind`. -/
def Dictht.findKey (t : Dictht K V) (key : K) : Option (Option (K × V)) :=
  (t.read (slot hash t key)).map fun he => he.find? fun e => key = e.1

def dictFind (d : Dict K V) (key : K) : Option (Dict K V × Option (K × V)) :=
  if dictSize d = 0 then some (d, none)
  else
    (rehashStepIfRehashing hash d).bind fun d =>
      (d.ht0.findKey hash key).bind fun
        | some he => some (d, some he)
        | none => if ¬ dictIsRehashing d then some (d, none) else (d.ht1.findKey hash key).map fun he => (d, he)

/-! ### Calls -/

inductive DictOp (K V : Type*)
  | add (key : K) (val : V)
  | replace (key : K) (val : V)
  | delete (key : K)
  | unlink (key : K)
  | find (key : K)
  | expand (size : ℕ)
  | resize
  | rehash (n : ℤ)
  deriving DecidableEq

structure DictCall (K V : Type*) where
  dict_can_resize : Bool
  op : DictOp K V
  deriving DecidableEq

/-- What a caller learns about the keys: a status, or the value of an entry. -/
inductive DictResult (V : Type*)
  | status (ok : Bool)
  | entry (val : Option V)
  deriving DecidableEq

def DictCall.exec (call : DictCall K V) (d : Dict K V) : Option (Dict K V × List (DictResult V)) :=
  match call.op with
  | .add key val => (dictAdd hash call.dict_can_resize d key val).map fun r => (r.1, [.status r.2])
  | .replace key val => (dictReplace hash call.dict_can_resize d key val).map fun r => (r.1, [.status r.2])
  | .delete key => (dictDelete hash d key).map fun r => (r.1, [.status r.2])
  | .unlink key => (dictUnlink hash d key).map fun r => (r.1, [.entry (r.2.map Prod.snd)])
  | .find key => (dictFind hash d key).map fun r => (r.1, [.entry (r.2.map Prod.snd)])
  | .expand size => some ((dictExpand d size).1, [])
  | .resize => some ((dictResize call.dict_can_resize d).1, [])
  | .rehash n => (dictRehash hash d n).map fun r => (r.1, [])

def dictRun : List (DictCall K V) → Dict K V → Option (Dict K V × List (DictResult V))
  | [], d => some (d, [])
  | call :: calls, d =>
    (call.exec hash d).bind fun r => (dictRun calls r.1).map fun r' => (r'.1, r.2 ++ r'.2)

/-- Successive calls of `dictScan` from a cursor, with the calls that are made between two of
them: the last cursor, and for each call the dict and what is emitted. -/
def scanRun : List (List (DictCall K V)) → Dict K V → BitVec 64 →
    Option (BitVec 64 × List (Dict K V × List (K × V)))
  | [], d, v => (dictScan d v).map fun r => (r.1, [(d, r.2)])
  | gap :: gaps, d, v =>
    (dictScan d v).bind fun r =>
      (dictRun hash gap d).bind fun r' => (scanRun gaps r'.1 r.1).map fun r'' => (r''.1, (d, r.2) :: r''.2)

end Operations

/-! ### The finite map -/

section Map

variable {K V : Type*} [DecidableEq K]

def DictCall.apply (call : DictCall K V) (m : Finmap fun _ : K => V) : (Finmap fun _ : K => V) × List (DictResult V) :=
  match call.op with
  | .add key val =>
    if (m.lookup key).isSome then (m, [.status false]) else (m.insert key val, [.status true])
  | .replace key val => (m.insert key val, [.status (m.lookup key).isNone])
  | .delete key => (m.erase key, [.status (m.lookup key).isSome])
  | .unlink key => (m.erase key, [.entry (m.lookup key)])
  | .find key => (m, [.entry (m.lookup key)])
  | .expand _ => (m, [])
  | .resize => (m, [])
  | .rehash _ => (m, [])

end Map

end RedisIR
