import RedisIR.Spec.Propagation
import RedisIR.Spec.Util

/-! The options of `SORT` and `MIGRATE`, which are read twice: by the commands (`sort.c`, `cluster.c`),
and by `sortGetKeys` and `migrateGetKeys` (`db.c`), which look for the positions of the keys only. -/

namespace RedisIR.KeyPositions

open CLib

inductive SortWord
  | asc
  | desc
  | alpha
  | limit
  | store
  | by
  | get
  deriving DecidableEq

/-- No two of the words are equal, so the order of the comparisons does not matter. -/
def sortWord (a : Bytes) : Option SortWord :=
  if isWord a (ascii ['A', 'S', 'C']) then some .asc
  else if isWord a (ascii ['D', 'E', 'S', 'C']) then some .desc
  else if isWord a (ascii ['A', 'L', 'P', 'H', 'A']) then some .alpha
  else if isWord a (ascii ['L', 'I', 'M', 'I', 'T']) then some .limit
  else if isWord a (ascii ['S', 'T', 'O', 'R', 'E']) then some .store
  else if isWord a (ascii ['B', 'Y']) then some .by
  else if isWord a (ascii ['G', 'E', 'T']) then some .get
  else none

/-- `storekey` is given by its position. -/
structure SortOptions where
  desc : Bool := false
  alpha : Bool := false
  limitStart : ℤ := 0
  limitCount : ℤ := -1
  storekey : Option ℕ := none
  sortby : Option Bytes := none
  dontsort : Bool := false
  operations : List Bytes := []
  deriving DecidableEq

/-- The loop of `sortCommand` over its options, from position `j` on; `none` is a syntax error. -/
def sortOptions (clusterEnabled : Bool) : ℕ → List Bytes → SortOptions → Option SortOptions
  | _, [], o => some o
  | j, a :: args, o =>
    match sortWord a, args with
    | some .asc, args => sortOptions clusterEnabled (j + 1) args { o with desc := false }
    | some .desc, args => sortOptions clusterEnabled (j + 1) args { o with desc := true }
    | some .alpha, args => sortOptions clusterEnabled (j + 1) args { o with alpha := true }
    | some .limit, x :: y :: args =>
      match string2ll x, string2ll y with
      | some start, some count =>
        sortOptions clusterEnabled (j + 3) args { o with limitStart := start, limitCount := count }
      | _, _ => none
    | some .store, _ :: args => sortOptions clusterEnabled (j + 2) args { o with storekey := some (j + 1) }
    | some .by, pattern :: args =>
      if (cstr pattern).val.contains 42 then
        if clusterEnabled then none else sortOptions clusterEnabled (j + 2) args { o with sortby := some pattern }
      else sortOptions clusterEnabled (j + 2) args { o with sortby := some pattern, dontsort := true }
    | some .get, pattern :: args =>
      if clusterEnabled then none
      else sortOptions clusterEnabled (j + 2) args { o with operations := o.operations ++ [pattern] }
    | _, _ => none

/-- The loop of `sortGetKeys` from position `i` on, with the number of arguments that it still skips. -/
def sortGetKeysLoop : ℕ → ℕ → List Bytes → Option ℕ → Option ℕ
  | _, _, [], store => store
  | i, skip + 1, _ :: args, store => sortGetKeysLoop (i + 1) skip args store
  | i, 0, a :: args, store =>
    match sortWord a with
    | some .limit => sortGetKeysLoop (i + 1) 2 args store
    | some .get | some .by => sortGetKeysLoop (i + 1) 1 args store
    | some .store => sortGetKeysLoop (i + 1) 0 args (if args = [] then store else some (i + 1))
    | _ => sortGetKeysLoop (i + 1) 0 args store

def sortGetKeys (argv : List Bytes) : List ℕ := 1 :: (sortGetKeysLoop 2 0 (argv.drop 2) none).toList

inductive MigrateWord
  | copy
  | replace
  | auth
  | keys
  deriving DecidableEq

def migrateWord (a : Bytes) : Option MigrateWord :=
  if isWord a (ascii ['C', 'O', 'P', 'Y']) then some .copy
  else if isWord a (ascii ['R', 'E', 'P', 'L', 'A', 'C', 'E']) then some .replace
  else if isWord a (ascii ['A', 'U', 'T', 'H']) then some .auth
  else if isWord a (ascii ['K', 'E', 'Y', 'S']) then some .keys
  else none

structure MigrateOptions where
  copy : Bool := false
  replace : Bool := false
  password : Option Bytes := none
  firstKey : ℕ := 3
  numKeys : ℕ := 1
  deriving DecidableEq

/-- The loop of `migrateCommand` over its options; `key` is `argv[3]`. -/
def migrateOptions (key : Bytes) : ℕ → List Bytes → MigrateOptions → Option MigrateOptions
  | _, [], o => some o
  | j, a :: args, o =>
    match migrateWord a, args with
    | some .copy, args => migrateOptions key (j + 1) args { o with copy := true }
    | some .replace, args => migrateOptions key (j + 1) args { o with replace := true }
    | some .auth, password :: args => migrateOptions key (j + 2) args { o with password := some password }
    | some .keys, args => if key = [] then some { o with firstKey := j + 1, numKeys := args.length } else none
    | _, _ => none

/-- `first` and `num` after the loop of `migrateGetKeys`. -/
def migrateGetKeysLoop (key : Bytes) : ℕ → List Bytes → ℕ × ℕ
  | _, [] => (3, 1)
  | i, a :: args =>
    if migrateWord a = some .keys ∧ key = [] then (i + 1, args.length) else migrateGetKeysLoop key (i + 1) args

def positions (first num : ℕ) : List ℕ := (List.range num).map (first + ·)

def migrateGetKeys (argv : List Bytes) : List ℕ :=
  let r := migrateGetKeysLoop (argv.getD 3 []) 6 (argv.drop 6)
  positions r.1 r.2

end RedisIR.KeyPositions
