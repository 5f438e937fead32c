import RedisIR.Spec.KeyPositions

/-! The positions that `sortGetKeys` and `migrateGetKeys` find are those of the keys that the commands
use, unless the argument of an option that they do not skip, `STORE` or `AUTH`, leads them astray. -/

namespace RedisIR.KeyPositions

open CLib List

/-- The positions, from `i` on, of the words `STORE` that have a word after them and are no arguments
of options. The key that is given to `STORE` counts as an argument if `skipKey` is 1. -/
def storeWords (skipKey : ℕ) : ℕ → ℕ → List Bytes → List ℕ
  | _, _, [] => []
  | i, skip + 1, _ :: args => storeWords skipKey (i + 1) skip args
  | i, 0, a :: args =>
    match sortWord a with
    | some .limit => storeWords skipKey (i + 1) 2 args
    | some .get | some .by => storeWords skipKey (i + 1) 1 args
    | some .store => (if args = [] then [] else [i]) ++ storeWords skipKey (i + 1) skipKey args
    | _ => storeWords skipKey (i + 1) 0 args

/-- The key after the last of some words, or the one that was known before. -/
def keyAfter (stores : List ℕ) (store : Option ℕ) : Option ℕ := (stores.getLast?.map (· + 1)).or store

theorem keyAfter_cons (i : ℕ) (stores : List ℕ) (store : Option ℕ) :
    keyAfter ([i] ++ stores) store = keyAfter stores (some (i + 1)) := by
  cases stores using List.reverseRecOn <;> simp [keyAfter, getLast?_cons]

theorem sortGetKeysLoop_eq (i skip : ℕ) (args : List Bytes) (store : Option ℕ) :
    sortGetKeysLoop i skip args store = keyAfter (storeWords 0 i skip args) store := by
  fun_induction sortGetKeysLoop i skip args store with
  | case1 => rfl
  | case2 i skip a args store ih => exact ih
  | case3 i a args store hword ih => simpa [storeWords, hword] using ih
  | case4 i a args store hword ih | case5 i a args store hword ih => simpa [storeWords, hword] using ih
  | case6 i a args store hword ih =>
    rw [ih]
    simp only [storeWords, hword]
    split_ifs
    · rfl
    · rw [keyAfter_cons]
  | case7 i a args store h1 h2 h3 h4 ih =>
    rw [ih, storeWords]
    split <;> simp_all

theorem sortOptions_storekey {clusterEnabled : Bool} {j : ℕ} {args : List Bytes} {o o' : SortOptions}
    (h : sortOptions clusterEnabled j args o = some o') :
    o'.storekey = keyAfter (storeWords 1 j 0 args) o.storekey := by
  fun_induction sortOptions clusterEnabled j args o with
  | case1 j o =>
    cases h
    rfl
  | case2 j a o args hword ih | case3 j a o args hword ih | case4 j a o args hword ih =>
    simpa [storeWords, hword] using ih h
  | case5 j a o x y args hword start count hy hx ih => simpa [storeWords, hword] using ih h
  | case7 j a o key args hword ih =>
    simp only [storeWords, hword, if_neg (cons_ne_nil _ _), keyAfter_cons]
    exact ih h
  | case9 j a o pattern args hword _ _ ih | case10 j a o pattern args hword _ ih
  | case12 j a o pattern args hword _ ih =>
    simpa [storeWords, hword] using ih h
  | case6 | case8 | case11 | case13 => cases h

/-- The last `STORE` is the same whether keys are skipped or not. -/
def SameStore (args : List Bytes) : Prop := (storeWords 0 2 0 args).getLast? = (storeWords 1 2 0 args).getLast?

/-- The passwords given to `AUTH` before the keys are not the word `KEYS`. -/
def plainPasswords : List Bytes → Bool
  | [] => true
  | a :: args =>
    match migrateWord a, args with
    | some .keys, _ => true
    | some .auth, password :: args => migrateWord password ≠ some .keys && plainPasswords args
    | _, args => plainPasswords args

theorem migrateGetKeysLoop_eq (key : Bytes) (j : ℕ) (args : List Bytes) (o : MigrateOptions) {o' : MigrateOptions}
    (h : migrateOptions key j args o = some o') (hkeys : (o.firstKey, o.numKeys) = (3, 1))
    (hplain : key = [] → plainPasswords args) : migrateGetKeysLoop key j args = (o'.firstKey, o'.numKeys) := by
  fun_induction migrateOptions key j args o with
  | case1 j o =>
    cases h
    exact hkeys.symm
  | case2 j a o args hword ih | case3 j a o args hword ih =>
    rw [migrateGetKeysLoop, if_neg (by simp [hword])]
    exact ih h hkeys fun hkey => by simpa [plainPasswords, hword] using hplain hkey
  | case4 j a o password args hword ih =>
    have hplain' (hkey : key = []) : migrateWord password ≠ some .keys ∧ plainPasswords args := by
      simpa [plainPasswords, hword] using hplain hkey
    rw [migrateGetKeysLoop, if_neg (by simp [hword]), migrateGetKeysLoop, if_neg fun hp => (hplain' hp.2).1 hp.1]
    exact ih h hkeys fun hkey => (hplain' hkey).2
  | case5 j a o args hword hkey =>
    cases h
    rw [migrateGetKeysLoop, if_pos ⟨hword, hkey⟩]
  | case6 | case7 => cases h

theorem migrateOptions_keys {key : Bytes} {j : ℕ} {args : List Bytes} {o o' : MigrateOptions}
    (h : migrateOptions key j args o = some o') (hkeys : (o.firstKey, o.numKeys) = (3, 1)) :
    (o'.firstKey, o'.numKeys) = (3, 1) ∨ j < o'.firstKey ∧ o'.firstKey + o'.numKeys = j + args.length := by
  fun_induction migrateOptions key j args o with
  | case1 j o =>
    cases h
    exact .inl hkeys
  | case2 j a o args hword ih | case3 j a o args hword ih =>
    rcases ih h hkeys with hnone | ⟨hlt, hend⟩
    · exact .inl hnone
    · exact .inr ⟨by omega, by rw [length_cons]; omega⟩
  | case4 j a o password args hword ih =>
    rcases ih h hkeys with hnone | ⟨hlt, hend⟩
    · exact .inl hnone
    · exact .inr ⟨by omega, by rw [length_cons, length_cons]; omega⟩
  | case5 j a o args hword hkey =>
    cases h
    exact .inr ⟨Nat.lt_succ_self j, by simp only [length_cons]; omega⟩
  | case6 | case7 => cases h

/-- A password that is the word `KEYS` is found before what the command takes for it. -/
theorem migrateGetKeysLoop_before {key : Bytes} {j : ℕ} {args : List Bytes} {o o' : MigrateOptions}
    (h : migrateOptions key j args o = some o') (hkeys : (o.firstKey, o.numKeys) = (3, 1)) (hkey : key = [])
    (hplain : plainPasswords args = false) :
    ∃ first num, migrateGetKeysLoop key j args = (first, num) ∧ j < first ∧ first + num = j + args.length ∧
      ((o'.firstKey, o'.numKeys) = (3, 1) ∨ first < o'.firstKey ∧ o'.firstKey + o'.numKeys = j + args.length) := by
  fun_induction migrateOptions key j args o with
  | case1 => cases hplain
  | case2 j a o args hword ih | case3 j a o args hword ih =>
    obtain ⟨first, num, hloop, hlt, hend, hused⟩ := ih h hkeys (by simpa [plainPasswords, hword] using hplain)
    rw [migrateGetKeysLoop, if_neg (by simp [hword]), length_cons]
    exact ⟨first, num, hloop, by omega, by omega, hused.imp_right fun h => ⟨h.1, by omega⟩⟩
  | case4 j a o password args hword ih =>
    rw [migrateGetKeysLoop, if_neg (by simp [hword]), migrateGetKeysLoop, length_cons, length_cons]
    by_cases hp : migrateWord password = some .keys
    · rw [if_pos ⟨hp, hkey⟩]
      refine ⟨_, _, rfl, by omega, by omega, ?_⟩
      exact (migrateOptions_keys h hkeys).imp_right fun h => ⟨h.1, by omega⟩
    · rw [if_neg fun h => hp h.1]
      obtain ⟨first, num, hloop, hlt, hend, hused⟩ :=
        ih h hkeys (by simpa [plainPasswords, hword, hp] using hplain)
      exact ⟨first, num, hloop, by omega, by omega, hused.imp_right fun h => ⟨h.1, by omega⟩⟩
  | case5 j a o args hword => simp [plainPasswords, hword] at hplain
  | case6 | case7 => cases h

theorem positions_inj {first num first' num' : ℕ} (h : positions first num = positions first' num') :
    num = num' ∧ (0 < num → first = first') := by
  have hnum : num = num' := by simpa [positions] using congrArg length h
  refine ⟨hnum, fun hpos => ?_⟩
  have hhead := congrArg (·[0]?) h
  simpa [positions, ← hnum, hpos] using hhead

def storeWord : Bytes := ascii ['s', 't', 'o', 'r', 'e']

def keysWord : Bytes := ascii ['k', 'e', 'y', 's']

def authWord : Bytes := ascii ['a', 'u', 't', 'h']

end RedisIR.KeyPositions
