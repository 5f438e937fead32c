import RedisIR.Spec.Expire
import RedisIR.Proofs.Bitops
import RedisIR.Proofs.OnDemand

/-! A time argument is stored, logged and waited for as the number that it stands for, as long as
that number fits into 64 bits. -/

namespace RedisIR.Expire

open CLib List Function Option

variable {key arg val : Bytes} {args : List Bytes} {t now a : ℤ} {f f' : SetFlags} {relative : Bool} {unit : TimeUnit}
  {c : TimeCommand} {role : Role} {db : Db}

def TimeUnit.factor : TimeUnit → ℤ
  | .seconds => 1000
  | .milliseconds => 1

/-- The absolute time that the argument `a` stands for. -/
def exactTime (now : ℤ) (unit : TimeUnit) (relative : Bool) (a : ℤ) : ℤ :=
  a * unit.factor + if relative then now else 0

/-- A number that a `long long` holds. -/
def Fits (t : ℤ) : Prop := -2 ^ 63 ≤ t ∧ t < 2 ^ 63

/-! ### Arithmetic -/

theorem wrap_of_fits (h : Fits t) : wrapLongLong t = t := wrapLongLong_of_range h.1 h.2

theorem fits_of_string2ll (h : string2ll arg = some a) : Fits a ∧ arg = decimal a := by
  obtain ⟨hlo, hhi, he⟩ := (string2ll_eq_some_iff arg a).mp h
  unfold LLONG_MIN at hlo
  unfold LLONG_MAX at hhi
  exact ⟨⟨by omega, by omega⟩, he⟩

theorem wrap_unit (unit : TimeUnit) (a base : ℤ) :
    wrapLongLong ((if unit = .seconds then wrapLongLong (a * 1000) else a) + base) =
      wrapLongLong (a * unit.factor + base) := by
  cases unit with
  | seconds => exact Int.bmod_add_bmod
  | milliseconds => simp [TimeUnit.factor]

/-! ### The log -/

/-- The time that is logged for the commands whose times are translated. -/
theorem expireAt_wrap {proc : AofProc}
    (ha : string2ll arg = some a) (hunit : proc = .expire ∨ proc = .setex ∨ proc = .expireat ↔ unit = .seconds)
    (hrel : proc = .expire ∨ proc = .pexpire ∨ proc = .setex ∨ proc = .psetex ↔ relative = true) :
    expireAt now proc key arg = [PEXPIREAT_COMMAND, key, decimal (wrapLongLong (exactTime now unit relative a))] := by
  obtain ⟨hfa, he⟩ := fits_of_string2ll ha
  have hread : strtol arg = a := he ▸ strtol_decimal hfa.1 hfa.2
  simp only [expireAt, hread, hunit, hrel]
  cases relative with
  | true =>
    rw [if_pos rfl, wrap_unit]
    rfl
  | false =>
    rw [if_neg Bool.false_ne_true]
    cases unit with
    | seconds => simp [exactTime, TimeUnit.factor]
    | milliseconds => simp [exactTime, TimeUnit.factor, wrap_of_fits hfa]

def TimeUnit.word : TimeUnit → Bytes
  | .seconds => EX
  | .milliseconds => PX

def TimeUnit.other : TimeUnit → TimeUnit
  | .seconds => .milliseconds
  | .milliseconds => .seconds

/-- `exarg` and `pxarg` of a loop that has met the words of one unit only. -/
def timeArgs (unit : TimeUnit) (x : Option Bytes) : Option Bytes × Option Bytes :=
  match unit with
  | .seconds => (x, none)
  | .milliseconds => (none, x)

theorem word_other_ne (unit : TimeUnit) : unit.word ≠ unit.other.word := by cases unit <;> decide

theorem expireArgs_skip {a : Bytes} (hw : isWord a unit.word = false) (ho : isWord a unit.other.word = false)
    (args : List Bytes) (ex px : Option Bytes) : expireArgs (a :: args) ex px = expireArgs args ex px := by
  cases unit <;> cases args <;> simp_all [expireArgs, TimeUnit.word, TimeUnit.other]

theorem expireArgs_word {a : Bytes} (hw : isWord a unit.word = true) (next : Bytes) (args : List Bytes)
    (x : Option Bytes) : expireArgs (a :: next :: args) (timeArgs unit x).1 (timeArgs unit x).2 =
      expireArgs (next :: args) (timeArgs unit (some next)).1 (timeArgs unit (some next)).2 := by
  have ho := isWord_ne hw (word_other_ne unit)
  cases unit <;> simp_all [expireArgs, TimeUnit.word, TimeUnit.other, timeArgs]

/-- Without a word of the other unit the log's loop ends with the time that `SET` took, although
it also looks at the arguments of the options. -/
theorem setOptions_logged (h : setOptions args f = some f') (hother : ∀ a ∈ args, isWord a unit.other.word = false)
    (harg : ∀ arg, f'.expire = some arg → isWord arg unit.word = false) :
    (f'.expire = f.expire ∧ ∀ x, expireArgs args (timeArgs unit x).1 (timeArgs unit x).2 =
      .returned (timeArgs unit x)) ∨
      ∃ arg, f'.expire = some arg ∧
        ∀ x, expireArgs args (timeArgs unit x).1 (timeArgs unit x).2 = .returned (timeArgs unit (some arg)) := by
  have hskip : ∀ {a w : Bytes} {b : Bool} {l : List Bytes}, (isWord a w && b) = true → w ≠ EX → w ≠ PX →
      ∀ ex px, expireArgs (a :: l) ex px = expireArgs l ex px := by
    intro a w b l ha hex hpx
    have ha := (Bool.and_eq_true_iff.mp ha).1
    exact @expireArgs_skip .seconds a (isWord_ne ha hex) (isWord_ne ha hpx) l
  -- an option of the unit itself, whose argument may be the word of the unit as well
  have hword : ∀ {a next : Bytes} {l : List Bytes} {g : SetFlags}, isWord a unit.word = true →
      isWord next unit.other.word = false → g.expire = some next →
      ((f'.expire = g.expire ∧ ∀ x, expireArgs l (timeArgs unit x).1 (timeArgs unit x).2 =
        .returned (timeArgs unit x)) ∨
        ∃ arg, f'.expire = some arg ∧
          ∀ x, expireArgs l (timeArgs unit x).1 (timeArgs unit x).2 = .returned (timeArgs unit (some arg))) →
      ∃ arg, f'.expire = some arg ∧ ∀ x, expireArgs (a :: next :: l) (timeArgs unit x).1 (timeArgs unit x).2 =
        .returned (timeArgs unit (some arg)) := by
    intro a next l g ha hnext hg hl
    rcases hl with ⟨he, hl⟩ | ⟨arg, he, hl⟩
    · refine ⟨next, he.trans hg, fun x => ?_⟩
      rw [expireArgs_word ha, expireArgs_skip (harg next (he.trans hg)) hnext, hl]
    · refine ⟨arg, he, fun x => ?_⟩
      rw [expireArgs_word ha]
      cases hw : isWord next unit.word with
      | false => rw [expireArgs_skip hw hnext, hl]
      | true =>
        cases l with
        | nil =>
          have := hl none
          cases unit <;> simp [expireArgs, timeArgs] at this
        | cons b l => rw [expireArgs_word hw, hl]
  fun_induction setOptions args f with
  | case1 f =>
    cases h
    exact .inl ⟨rfl, fun x => rfl⟩
  | case2 a args f hnx ih =>
    simp only [hskip hnx (by decide) (by decide)]
    exact ih h (forall_mem_cons.mp hother).2
  | case3 a args f _ hxx ih =>
    simp only [hskip hxx (by decide) (by decide)]
    exact ih h (forall_mem_cons.mp hother).2
  | case4 | case7 => cases h
  | case5 a f next args _ _ hex ih =>
    have hex := (Bool.and_eq_true_iff.mp hex).1
    have hother' := forall_mem_cons.mp (forall_mem_cons.mp hother).2
    cases unit with
    | seconds => exact .inr (hword hex hother'.1 rfl (ih h hother'.2))
    | milliseconds => exact absurd hex (Bool.not_eq_true _ ▸ hother a (by simp))
  | case6 a f next args _ _ _ hpx ih =>
    have hpx := (Bool.and_eq_true_iff.mp hpx).1
    have hother' := forall_mem_cons.mp (forall_mem_cons.mp hother).2
    cases unit with
    | milliseconds => exact .inr (hword hpx hother'.1 rfl (ih h hother'.2))
    | seconds => exact absurd hpx (Bool.not_eq_true _ ▸ hother a (by simp))

theorem setOptions_word (h : setOptions args f = some f') :
    f'.expire = f.expire ∧ f'.px = f.px ∨ ∃ a ∈ args, isWord a (timeUnit f').word = true := by
  fun_induction setOptions args f with
  | case1 f =>
    cases h
    exact .inl ⟨rfl, rfl⟩
  | case2 a args f hnx ih => exact (ih h).imp_right (.imp fun b => .imp_left (List.mem_cons_of_mem a))
  | case3 a args f _ hxx ih => exact (ih h).imp_right (.imp fun b => .imp_left (List.mem_cons_of_mem a))
  | case4 | case7 => cases h
  | case5 a f next args _ _ hex ih =>
    simp only [Bool.and_eq_true, Bool.not_eq_true'] at hex
    rcases ih h with ⟨-, hpx⟩ | ⟨b, hb, hw⟩
    · exact .inr ⟨a, by simp, by simp [timeUnit, hpx, hex.2, TimeUnit.word, hex.1]⟩
    · exact .inr ⟨b, by simp [hb], hw⟩
  | case6 a f next args _ _ _ hpx ih =>
    simp only [Bool.and_eq_true] at hpx
    rcases ih h with ⟨-, hpx'⟩ | ⟨b, hb, hw⟩
    · exact .inr ⟨a, by simp, by simp [timeUnit, hpx', TimeUnit.word, hpx.1]⟩
    · exact .inr ⟨b, by simp [hb], hw⟩

/-- A word that the log's loop meets leaves its argument. -/
theorem expireArgs_isSome {ex px : Option Bytes} {r : Option Bytes × Option Bytes}
    (h : expireArgs args ex px = .returned r) :
    (ex.isSome ∨ (∃ a ∈ args, isWord a EX = true) → r.1.isSome) ∧
      (px.isSome ∨ (∃ a ∈ args, isWord a PX = true) → r.2.isSome) := by
  fun_induction expireArgs args ex px with
  | case1 ex px =>
    cases h
    simp
  | case2 => cases h
  | case3 a ex px hw =>
    cases h
    simp_all
  | case4 a next args ex px ih =>
    obtain ⟨h1, h2⟩ := ih h
    constructor
    · rintro (hs | ⟨b, hb, hw⟩)
      · exact h1 (.inl (by split_ifs <;> simp [hs]))
      · rcases mem_cons.mp hb with rfl | hb
        · exact h1 (.inl (by simp [hw]))
        · exact h1 (.inr ⟨b, hb, hw⟩)
    · rintro (hs | ⟨b, hb, hw⟩)
      · exact h2 (.inl (by split_ifs <;> simp [hs]))
      · rcases mem_cons.mp hb with rfl | hb
        · exact h2 (.inl (by simp [hw]))
        · exact h2 (.inr ⟨b, hb, hw⟩)

/-! ### The commands -/

/-- The time in the arguments of a command, its unit, and whether it is relative to the clock. -/
def TimeCommand.Takes (arg : Bytes) (unit : TimeUnit) (relative : Bool) : TimeCommand → Prop
  | .set options => relative = true ∧
      ∃ f, setOptions options OBJ_SET_NO_FLAGS = some f ∧ f.expire = some arg ∧ timeUnit f = unit
  | .setex => unit = .seconds ∧ relative = true
  | .psetex => unit = .milliseconds ∧ relative = true
  | .expire => unit = .seconds ∧ relative = true
  | .pexpire => unit = .milliseconds ∧ relative = true
  | .expireat => unit = .seconds ∧ relative = false
  | .pexpireat => unit = .milliseconds ∧ relative = false

/-- None of the options of a `SET` and of their arguments is the word of the other unit. -/
def TimeCommand.OneUnit (unit : TimeUnit) : TimeCommand → Prop
  | .set options => ∀ a ∈ options, isWord a unit.other.word = false
  | _ => True

/-- A master deletes the key of an `EXPIRE` whose time, as it was computed, has passed. -/
def TimeCommand.Deletes (role : Role) (now time : ℤ) : TimeCommand → Prop
  | .expire | .pexpire | .expireat | .pexpireat => time ≤ now ∧ ¬ role.loading ∧ ¬ role.replica
  | _ => False

/-- The time `t` has passed and the key is gone, or it is stored and logged. -/
def TimeCommand.Exact (now : ℤ) (key val arg : Bytes) (t : ℤ) (db : Db) (c : TimeCommand) : Prop :=
  db.dict key = none ∧ t ≤ now ∨
    db.dict key ≠ none ∧ db.expires key = some t ∧ ∃ before, translate now c.proc (c.argv key val arg) =
      .returned (before ++ [[PEXPIREAT_COMMAND, key, decimal t]])

/-- Both words have an `X`, a number has none. -/
theorem isWord_number (unit : TimeUnit) (ha : string2ll arg = some a) : isWord arg unit.word = false := by
  by_contra hw
  simp only [isWord, Bool.not_eq_false, decide_eq_true_eq] at hw
  have hx : (88 : UInt8) ∈ sdstoupper (cstr arg).val := by
    rw [hw]
    cases unit <;> decide
  obtain ⟨c, hc, hup⟩ := mem_map.mp hx
  have hmem : c ∈ decimal a := (fits_of_string2ll ha).2 ▸ ( takeWhile_prefix _).subset hc
  have hcase : c = 88 ∨ c = 120 := by
    unfold toupper at hup
    split_ifs at hup
    · exact .inr ((UInt8.sub_add_cancel c 32).symm.trans (congrArg (· + 32) hup))
    · exact .inl hup
  rcases hcase with rfl | rfl
  · exact not_mem_decimal (by decide) (by decide) a hmem
  · exact not_mem_decimal (by decide) (by decide) a hmem

theorem setTime_some {ms : ℤ} (now : ℤ) (ha : string2ll arg = some a) (h : setTime unit arg = some ms) :
    wrapLongLong (now + ms) = wrapLongLong (exactTime now unit true a) := by
  simp only [setTime, ha] at h
  split_ifs at h with hpos hunit
  all_goals
    cases h
    rw [add_comm, exactTime, if_pos rfl, ← wrap_unit]
    simp [hunit]

theorem setExpire_setKey (role : Role) (now : ℤ) (db : Db) (key val : Bytes) (time : ℤ) :
    ∃ db', setExpire (setKey role now db key val) key time = some db' ∧ db'.dict key ≠ none ∧
      db'.expires key = some time := by
  refine ⟨{ setKey role now db key val with expires := _ }, if_pos (by simp [setKey]), by simp [setKey], ?_⟩
  exact update_self ..

/-- What is left behind by a command that took effect. -/
def Leaves (deleted : Prop) (key : Bytes) (time : ℤ) (db : Db) (reply : Reply) : Prop :=
  reply = .ok ∨ reply = .one →
    deleted ∧ db.dict key = none ∨ ¬ deleted ∧ db.dict key ≠ none ∧ db.expires key = some time

theorem setGenericCommand_leaves {nx xx : Bool} (ha : string2ll arg = some a) :
    ∃ db' reply, setGenericCommand role now nx xx key val (some arg) unit db = some (db', reply) ∧
      Leaves False key (wrapLongLong (exactTime now unit true a)) db' reply := by
  rw [setGenericCommand]
  rcases hms : setTime unit arg with _ | ms
  · exact ⟨db, .error, rfl, by simp [Leaves]⟩
  · simp only [setGeneric, setTime_some now ha hms]
    generalize (if (nx || xx) = true then (lookupKeyWrite role now db key).1 else db) = db₁
    split_ifs
    · exact ⟨db₁, .null, rfl, by simp [Leaves]⟩
    · obtain ⟨db', he, hin, ht⟩ :=
        setExpire_setKey role now db₁ key val (wrapLongLong (exactTime now unit true a))
      exact ⟨db', .ok, by rw [he]; rfl, fun _ => .inr ⟨id, hin, ht⟩⟩

theorem expireGenericCommand_leaves (ha : string2ll arg = some a) :
    ∃ db' reply, expireGenericCommand role now (if relative then now else 0) unit key arg db = some (db', reply) ∧
      Leaves (wrapLongLong (exactTime now unit relative a) ≤ now ∧ ¬ role.loading ∧ ¬ role.replica) key
        (wrapLongLong (exactTime now unit relative a)) db' reply := by
  have htime : expireTime (if relative then now else 0) unit arg =
      some (wrapLongLong (exactTime now unit relative a)) := by
    rw [expireTime, ha, map_some, wrap_unit]
    rfl
  rw [expireGenericCommand, htime]
  simp only
  rcases hl : lookupKeyWrite role now db key with ⟨db₁, val⟩
  have hval : db₁.dict key = val := by
    rw [lookupKeyWrite] at hl
    obtain ⟨rfl, rfl⟩ := Prod.mk.inj hl
    rfl
  simp only
  split_ifs with hnone hpast
  · exact ⟨db₁, .zero, rfl, by simp [Leaves]⟩
  · exact ⟨db₁.delete key, .one, rfl, fun _ => .inl ⟨hpast, by simp [Db.delete]⟩⟩
  · have hsome : (db₁.dict key).isSome = true := by
      rw [hval]
      simpa [Option.isSome_iff_ne_none] using hnone
    refine ⟨{ db₁ with expires := update db₁.expires key (some (wrapLongLong (exactTime now unit relative a))) },
      .one, ?_, fun _ => .inr ⟨hpast, Option.isSome_iff_ne_none.mp hsome, by simp⟩⟩
    rw [setExpire, if_pos hsome]
    rfl

theorem setGeneric_dict (hlive : keyIsExpired role now db key = false) (f : SetFlags)
    (ms : Option ℤ) (c : Cmd) : (setGeneric role now f.nx f.xx key val ms db).map (fun r => r.1.dict) =
      some (RedisIR.setGenericCommand f.nx f.xx key val c db.dict).db := by
  have hlookup : (lookupKeyWrite role now db key).1 = db := by simp [lookupKeyWrite, hlive]
  simp only [setGeneric, hlookup, ite_self, RedisIR.setGenericCommand]
  split_ifs
  · rfl
  · cases ms with
    | none => simp [setKey, hlookup, RedisIR.setKey]
    | some ms => simp [setExpire, setKey, hlookup, RedisIR.setKey]

/-- At a key that has not expired, `SET` does to the values what it does without the times. -/
theorem setCommand_dict (hlive : keyIsExpired role now db key = false) (options : List Bytes) :
    (setCommand role now key val options db).map (fun r => r.1.dict) =
      some (setCommandOptions key val options db.dict).db := by
  rw [setCommand, setCommandOptions]
  cases setOptions options OBJ_SET_NO_FLAGS with
  | none => rfl
  | some f =>
    simp only [setGenericCommand, setGenericCommandFlags]
    cases f.expire with
    | none => exact setGeneric_dict hlive f none _
    | some expire =>
      simp only [setTime]
      cases string2ll expire with
      | none => rfl
      | some time =>
        simp only
        split_ifs
        · rfl
        · exact setGeneric_dict hlive f _ _
        · exact setGeneric_dict hlive f _ _

theorem exec_leaves (hc : c.Takes arg unit relative)
    (ha : string2ll arg = some a) : ∃ db' reply, c.exec role now key val arg db = some (db', reply) ∧
      Leaves (c.Deletes role now (wrapLongLong (exactTime now unit relative a))) key
        (wrapLongLong (exactTime now unit relative a)) db' reply := by
  have hexp := @expireGenericCommand_leaves key arg now a relative unit role db ha
  cases c with
  | set options =>
    obtain ⟨rfl, f, hf, hexpire, rfl⟩ := hc
    simp only [TimeCommand.exec, setCommand, hf, hexpire]
    exact setGenericCommand_leaves ha
  | setex => obtain ⟨rfl, rfl⟩ := hc; exact setGenericCommand_leaves ha
  | psetex => obtain ⟨rfl, rfl⟩ := hc; exact setGenericCommand_leaves ha
  | expire => obtain ⟨rfl, rfl⟩ := hc; exact hexp
  | pexpire => obtain ⟨rfl, rfl⟩ := hc; exact hexp
  | expireat => obtain ⟨rfl, rfl⟩ := hc; exact hexp
  | pexpireat => obtain ⟨rfl, rfl⟩ := hc; exact hexp

theorem translate_set (key val : Bytes) (hargs : args ≠ []) : translate now .set ([SET_COMMAND, key, val] ++ args) =
    (expireArgs args none none).bind fun
      | (some _, some _) => .exited
      | (some exarg, none) => .returned [[SET_COMMAND, key, val], expireAt now .expire key exarg]
      | (none, some pxarg) => .returned [[SET_COMMAND, key, val], expireAt now .pexpire key pxarg]
      | (none, none) => .returned [[SET_COMMAND, key, val]] := by
  rw [translate, if_pos (by simpa using length_pos_iff.mpr hargs)]
  rfl

theorem translate_wrap (key val : Bytes) (hc : c.Takes arg unit relative)
    (ha : string2ll arg = some a) (hone : c.OneUnit unit) : ∃ before, translate now c.proc (c.argv key val arg) =
      .returned (before ++ [[PEXPIREAT_COMMAND, key, decimal (wrapLongLong (exactTime now unit relative a))]]) := by
  have hwrap := fun before proc h1 h2 => congrArg (fun t => Outcome.returned (before ++ [t]))
    (@expireAt_wrap key arg now a relative unit proc ha h1 h2)
  cases c with
  | set options =>
    obtain ⟨rfl, f, hf, hexp, rfl⟩ := hc
    refine ⟨[[SET_COMMAND, key, val]], ?_⟩
    rcases setOptions_logged hf hone fun arg' h => by
      obtain rfl := some.inj (hexp.symm.trans h)
      exact isWord_number _ ha with ⟨he, -⟩ | ⟨arg', he, hlog⟩
    · cases hexp.symm.trans he
    · obtain rfl : arg = arg' := some.inj (hexp.symm.trans he)
      have hne : options ≠ [] := by
        rintro rfl
        cases hf
        cases hexp
      rw [TimeCommand.argv, TimeCommand.proc, translate_set key val hne]
      have hlog := hlog none
      revert hlog hwrap
      cases timeUnit f with
      | seconds =>
        intro hwrap hlog
        rw [show expireArgs options none none = _ from hlog]
        exact hwrap [_] .expire (by simp) (by simp)
      | milliseconds =>
        intro hwrap hlog
        rw [show expireArgs options none none = _ from hlog]
        exact hwrap [_] .pexpire (by simp) (by simp)
  | setex => obtain ⟨rfl, rfl⟩ := hc; exact ⟨_, hwrap [[SET_COMMAND, key, val]] .setex (by simp) (by simp)⟩
  | psetex => obtain ⟨rfl, rfl⟩ := hc; exact ⟨_, hwrap [[SET_COMMAND, key, val]] .psetex (by simp) (by simp)⟩
  | expire => obtain ⟨rfl, rfl⟩ := hc; exact ⟨[], hwrap [] .expire (by simp) (by simp)⟩
  | pexpire => obtain ⟨rfl, rfl⟩ := hc; exact ⟨[], hwrap [] .pexpire (by simp) (by simp)⟩
  | expireat => obtain ⟨rfl, rfl⟩ := hc; exact ⟨[], hwrap [] .expireat (by simp) (by simp)⟩
  | pexpireat =>
    obtain ⟨rfl, rfl⟩ := hc
    refine ⟨[], ?_⟩
    obtain ⟨hfa, he⟩ := fits_of_string2ll ha
    have ht : wrapLongLong (exactTime now .milliseconds false a) = a := by
      simp [exactTime, TimeUnit.factor, wrap_of_fits hfa]
    rw [ht, ← he]
    rfl

/-- With the words of both units the assertion of `feedAppendOnlyFile` fails. -/
theorem oneUnit_of_translate {r : List (List Bytes)} (hc : c.Takes arg unit relative)
    (h : translate now c.proc (c.argv key val arg) = .returned r) : c.OneUnit unit := by
  cases c with
  | set options =>
    obtain ⟨-, f, hf, hexp, rfl⟩ := hc
    intro b hb
    by_contra hother
    rw [Bool.not_eq_false] at hother
    rw [TimeCommand.argv, TimeCommand.proc, translate_set key val (ne_nil_of_mem hb), Outcome.bind_eq_returned] at h
    obtain ⟨r', hr', hret⟩ := h
    obtain ⟨a, ha, hw⟩ : ∃ a ∈ options, isWord a (timeUnit f).word = true := by
      rcases setOptions_word hf with ⟨he, -⟩ | hw
      · cases hexp.symm.trans he
      · exact hw
    obtain ⟨h1, h2⟩ := expireArgs_isSome hr'
    have hboth : r'.1.isSome ∧ r'.2.isSome := by
      revert hw hother
      cases timeUnit f with
      | seconds => exact fun hother hw => ⟨h1 (.inr ⟨a, ha, hw⟩), h2 (.inr ⟨b, hb, hother⟩)⟩
      | milliseconds => exact fun hother hw => ⟨h1 (.inr ⟨b, hb, hother⟩), h2 (.inr ⟨a, ha, hw⟩)⟩
    obtain ⟨_ | x, _ | y⟩ := r' <;> simp_all
  | _ => trivial

theorem getTimeout_wrap (ha : string2ll arg = some a) (ht : getTimeoutFromObjectOrReply now unit arg = some t) :
    t = if a = 0 then 0 else wrapLongLong (exactTime now unit true a) := by
  simp only [getTimeoutFromObjectOrReply, ha, wrap_unit] at ht
  split_ifs at ht with hneg hpos
  · cases ht
    rw [if_neg (by omega)]
    rfl
  · cases ht
    rw [if_pos (by omega)]
    omega

theorem wrap_eq_self_iff : wrapLongLong t = t ↔ Fits t :=
  ⟨fun h => h ▸ ⟨Int.le_bmod (by decide), Int.bmod_lt (by decide)⟩, wrap_of_fits⟩

/-- A command with a time that takes effect stores and logs the time that its argument stands for
exactly when that fits into 64 bits and a `SET` has no word of the other unit; an `EXPIRE` whose
computed time makes a master delete the key is also right below that range. A positive time that
is relative is not in the past, and a client waits for the time that its argument stands for
exactly when that fits. -/
theorem time_arguments_exact_iff (role : Role) (now : ℤ) (hnow : 0 ≤ now ∧ now < 2 ^ 62) (key val : Bytes)
    (db : Db) :
    (∀ (c : TimeCommand) (arg : Bytes) (unit : TimeUnit) (relative : Bool) (a : ℤ), c.Takes arg unit relative →
      string2ll arg = some a →
        (∃ db' reply, c.exec role now key val arg db = some (db', reply) ∧ (reply = .ok ∨ reply = .one →
          (c.Exact now key val arg (exactTime now unit relative a) db' ↔ exactTime now unit relative a < 2 ^ 63 ∧
            (c.Deletes role now (wrapLongLong (exactTime now unit relative a)) ∨
              -2 ^ 63 ≤ exactTime now unit relative a ∧ c.OneUnit unit)))) ∧
        (relative = true → 0 < a → now < exactTime now unit relative a)) ∧
      ∀ (unit : TimeUnit) (arg : Bytes) (a t : ℤ), string2ll arg = some a →
        getTimeoutFromObjectOrReply now unit arg = some t →
          ((t = if a = 0 then 0 else exactTime now unit true a) ↔ a = 0 ∨ Fits (exactTime now unit true a)) := by
  refine ⟨fun c arg unit relative a hc ha => ⟨?_, fun hrel hpos => ?_⟩, fun unit arg a t ha ht => ?_⟩
  · obtain ⟨db', reply, hexec, hleaves⟩ := @exec_leaves key arg val now a relative unit c role db hc ha
    refine ⟨db', reply, hexec, fun hreply => ?_⟩
    generalize htime : exactTime now unit relative a = time at hleaves ⊢
    rcases hleaves hreply with ⟨hdel, hgone⟩ | ⟨hdel, hin, hstored⟩
    · have hpast : wrapLongLong time ≤ now := by cases c <;> first | exact hdel.1 | exact hdel.elim
      constructor
      · rintro (⟨-, hle⟩ | ⟨hin, -⟩)
        · exact ⟨by omega, .inl hdel⟩
        · exact absurd hgone hin
      · rintro ⟨hhi, -⟩
        -- the computed time has passed, and so has the exact one, which is at most that
        by_cases hlo : -2 ^ 63 ≤ time
        · exact .inl ⟨hgone, wrap_of_fits ⟨hlo, hhi⟩ ▸ hpast⟩
        · exact .inl ⟨hgone, by omega⟩
    · constructor
      · rintro (⟨hgone, -⟩ | ⟨-, he, before, hlog⟩)
        · exact absurd hgone hin
        · have hfit := wrap_eq_self_iff.mp (some.inj (hstored.symm.trans he))
          exact ⟨hfit.2, .inr ⟨hfit.1, oneUnit_of_translate hc hlog⟩⟩
      · rintro ⟨hhi, hdel' | ⟨hlo, hone⟩⟩
        · exact absurd hdel' hdel
        · obtain ⟨before, hlog⟩ := @translate_wrap arg now a relative unit c key val hc ha hone
          rw [htime, wrap_of_fits ⟨hlo, hhi⟩] at hlog
          exact .inr ⟨hin, hstored.trans (by rw [wrap_of_fits ⟨hlo, hhi⟩]), before, hlog⟩
  · rw [exactTime, hrel, if_pos rfl]
    have : 0 < a * unit.factor := Int.mul_pos hpos (by cases unit <;> decide)
    omega
  · rw [getTimeout_wrap ha ht]
    split_ifs with hzero
    · simp [hzero]
    · simp [hzero, wrap_eq_self_iff]

/-- `SET k v EX 5 EX 10` on a master, ten seconds after the epoch. -/
theorem set_ex_stored : (TimeCommand.set [EX, [53], EX, [49, 48]]).Takes [49, 48] .seconds true ∧
    string2ll [49, 48] = some 10 ∧ ∃ db' reply,
      TimeCommand.exec ⟨false, false⟩ 10000 [107] [118] [49, 48] ⟨fun _ => none, fun _ => none⟩
        (.set [EX, [53], EX, [49, 48]]) = some (db', reply) ∧
      TimeCommand.Exact 10000 [107] [118] [49, 48] 20000 db' (.set [EX, [53], EX, [49, 48]]) := by
  have htakes : (TimeCommand.set [EX, [53], EX, [49, 48]]).Takes [49, 48] .seconds true :=
    ⟨rfl, ⟨false, false, true, false, some [49, 48]⟩, by decide, rfl, rfl⟩
  have harg : string2ll [49, 48] = some 10 := by decide
  obtain ⟨⟨db', reply, he, hiff⟩, -⟩ :=
    (time_arguments_exact_iff ⟨false, false⟩ 10000 (by decide) [107] [118]
    ⟨fun _ => none, fun _ => none⟩).1 _ _ _ _ _ htakes harg
  have hreply : (TimeCommand.exec ⟨false, false⟩ 10000 [107] [118] [49, 48] ⟨fun _ => none, fun _ => none⟩
      (.set [EX, [53], EX, [49, 48]])).map Prod.snd = some .ok := by decide
  have hone : (TimeCommand.set [EX, [53], EX, [49, 48]]).OneUnit .seconds := by
    unfold TimeCommand.OneUnit
    decide
  rw [he, map_some, some.injEq] at hreply
  exact ⟨htakes, harg, db', reply, he, (hiff (.inl hreply)).mpr ⟨by decide, .inr ⟨by decide, hone⟩⟩⟩

def hugeSeconds : Bytes := [57, 50, 50, 51, 51, 55, 50, 48, 51, 54, 56, 53, 52, 55, 55, 54]

/-- More seconds than 64 bits hold milliseconds, at the time 1700000000000: `SETEX` stores a negative
time, `EXPIRE` deletes the key, the log has a time in the past too, and a client that blocks is due at
once. -/
theorem hugeSeconds_wraps :
    ((TimeCommand.exec ⟨false, false⟩ 1700000000000 [107] [118] hugeSeconds
      ⟨fun _ => none, fun _ => none⟩ .setex).map
        fun r => (r.2, r.1.expires [107])) = some (.ok, some (-9223370336854775616)) ∧
      ((TimeCommand.exec ⟨false, false⟩ 1700000000000 [107] [118] hugeSeconds
        ⟨fun _ => some [118], fun _ => none⟩
        .expire).map fun r => (r.2, r.1.dict [107])) = some (.one, none) ∧
      expireAt 1700000000000 .setex [107] hugeSeconds = [PEXPIREAT_COMMAND, [107], decimal (-9223370336854775616)] ∧
      getTimeoutFromObjectOrReply 1700000000000 .seconds hugeSeconds = some (-9223370336854775616) := by
  refine ⟨by decide +kernel, by decide +kernel, by decide +kernel, by decide +kernel⟩

end RedisIR.Expire
