import RedisIR.Proofs.ZipEntry

/-! A ziplist is a list of strings: each entry stores the length of the one before it, and every
change carries these lengths through the entries behind it. -/

namespace RedisIR

open Memory CLib Endian Positions List Option ZEntry

/-! ### Chains of entries -/

/-- Each entry has the length of the one before it, `p` for the first one. -/
def Linked : ℕ → List ZEntry → Prop
  | _, [] => True
  | p, e :: es => e.prevlen = p ∧ (e.large = false → p < ZIP_BIG_PREVLEN) ∧ Linked e.raw es

def lastRaw : ℕ → List ZEntry → ℕ
  | p, [] => p
  | _, e :: es => lastRaw e.raw es

section Chain

variable {p q : ℕ} {a b es : List ZEntry} {e : ZEntry}

theorem linked_append : Linked p (a ++ b) ↔ Linked p a ∧ Linked (lastRaw p a) b := by
  induction a generalizing p with
  | nil => simp [Linked, lastRaw]
  | cons e a ih => simp [cons_append, Linked, lastRaw, ih, and_assoc]

theorem lastRaw_concat (p : ℕ) (a : List ZEntry) (e : ZEntry) : lastRaw p (a ++ [e]) = e.raw := by
  induction a generalizing p with
  | nil => rfl
  | cons e' a ih => rw [cons_append, lastRaw, ih]

theorem codes_dropLast_length (es : List ZEntry) : (codes es.dropLast).length + lastRaw 0 es = (codes es).length := by
  rcases eq_nil_or_concat es with rfl | ⟨a, e, rfl⟩
  · rfl
  · rw [concat_eq_append, dropLast_concat, lastRaw_concat, codes_append, codes_singleton, length_append,
      code_length]

theorem Linked.relink (h : Linked p es) : Linked q (relink q es) := by
  induction es generalizing p q with
  | nil => trivial
  | cons e es ih =>
    obtain ⟨hprev, hform, hrest⟩ := h
    rw [RedisIR.relink]
    split_ifs with h1 h2
    · subst h1
      exact ⟨rfl, fun hsmall => hprev ▸ hform hsmall, hrest⟩
    · exact ⟨rfl, by simp, ih hrest⟩
    · refine ⟨rfl, ?_, hrest⟩
      intro hsmall
      exact Nat.not_le.mp fun hle => h2 ⟨hsmall, hle⟩

theorem Linked.relink_eq (h : Linked q es) : RedisIR.relink q es = es := by
  cases es with
  | nil => rfl
  | cons e es => rw [RedisIR.relink, if_pos h.1]

theorem Linked.ok (h : Linked p es) (hp : p < 2 ^ 32) (hsize : (codes es).length < 2 ^ 32)
    (hreads : ∀ e ∈ es, ∃ v, ZipReads e.body v) : ∀ e ∈ es, e.Ok := by
  induction es generalizing p with
  | nil => simp
  | cons e es ih =>
    obtain ⟨hprev, hform, hrest⟩ := h
    rw [codes_cons_length] at hsize
    intro e' he'
    rcases mem_cons.mp he' with rfl | hmem
    · exact ⟨fun hsmall => hprev ▸ hform hsmall, hprev ▸ hp, hreads e' (by simp)⟩
    · exact ih hrest (by omega) (by omega) (forall_mem_cons.mp hreads).2 e' hmem

end Chain

/-- The entries behind a new one of length `q`, or behind the deleted ones: the first of them
takes the length, in the form that it needs. The long form stays if there is no room to move
the entry to the front. -/
def linkNext (keep : Bool) (q : ℕ) : List ZEntry → List ZEntry
  | [] => []
  | e :: es =>
    let e' : ZEntry := ⟨decide (ZIP_BIG_PREVLEN ≤ q) || (keep && e.large && decide (q < 4)), q, e.body⟩
    e' :: relink e'.raw es

/-- The new entry for the string `s` behind the entries `a`. -/
def newEntry (a : List ZEntry) (s : Bytes) : ZEntry :=
  ⟨decide (ZIP_BIG_PREVLEN ≤ lastRaw 0 a), lastRaw 0 a, zipBody s⟩

/-- An insertion between `a` and `b`. -/
def zlInsert (a b : List ZEntry) (s : Bytes) : List ZEntry :=
  a ++ newEntry a s :: linkNext true (newEntry a s).raw b

/-- The deletion of what is between `a` and `b`. -/
def zlDelete (a b : List ZEntry) : List ZEntry := a ++ linkNext false (lastRaw 0 a) b

section Chain

variable {p q : ℕ} {a b : List ZEntry}

theorem linkNext_bodies (keep : Bool) (q : ℕ) (b : List ZEntry) :
    (linkNext keep q b).map ZEntry.body = b.map ZEntry.body := by
  cases b with
  | nil => rfl
  | cons e es => rw [linkNext, map_cons, map_cons, relink_bodies]

theorem Linked.linkNext (h : Linked p b) (keep : Bool) (q : ℕ) : Linked q (linkNext keep q b) := by
  cases b with
  | nil => trivial
  | cons e es =>
    refine ⟨rfl, ?_, h.2.2.relink⟩
    intro hsmall
    simp only [Bool.or_eq_false_iff, decide_eq_false_iff_not, not_le] at hsmall
    exact hsmall.1

theorem Linked.zlInsert (h : Linked 0 (a ++ b)) (s : Bytes) : Linked 0 (zlInsert a b s) := by
  rw [linked_append] at h
  refine linked_append.mpr ⟨h.1, rfl, ?_, h.2.linkNext _ _⟩
  intro hsmall
  simpa [newEntry] using hsmall

theorem Linked.zlDelete {d : List ZEntry} (h : Linked 0 (a ++ (d ++ b))) : Linked 0 (zlDelete a b) := by
  rw [linked_append, linked_append] at h
  exact linked_append.mpr ⟨h.1, h.2.2.linkNext _ _⟩

end Chain

/-! ### Insertion -/

section Insert

variable {len : ℕ} {a : Bytes} {e : ZEntry} {es : List ZEntry}

theorem insert_form (large : Bool) (r : ℕ) :
    let nextdiff : ℤ := (zipPrevSize (ZIP_BIG_PREVLEN ≤ r) : ℤ) - zipPrevSize large
    let forcelarge : Bool := nextdiff = -4 ∧ r < 4
    let large' : Bool := decide (ZIP_BIG_PREVLEN ≤ r) || (true && large && decide (r < 4))
    (if forcelarge then 0 else nextdiff) = (zipPrevSize large' : ℤ) - zipPrevSize large ∧
      (if forcelarge then zipStorePrevEntryLengthLarge r else zipStorePrevEntryLength r) = zipPrevField large' r ∧
      zipPrevSize large ≤ r + zipPrevSize large' := by
  intro nextdiff forcelarge large'
  simp only [zipStorePrevEntryLength_eq, nextdiff, forcelarge, large']
  by_cases hbig : ZIP_BIG_PREVLEN ≤ r
  · cases large <;> simp [hbig]
  · by_cases hfour : r < 4
    · cases large <;> simp [hbig, hfour, zipPrevField]
    · cases large
      · simp [hbig, hfour]
      · simp [hbig, hfour]
        omega

/-- What the functions read once the entry behind the gap has its new length. -/
theorem zlBlock_behind {bytes tail : ℕ} (he : e.Ok) (hraw : e.raw < 2 ^ 32) (hes : ∀ e ∈ es, e.Ok)
    (htail : tail < 2 ^ 32) (x : Bytes) :
    ∃ t c, ziplistTailOffset (zlBlock bytes tail len x ++ (e.code ++ (codes es ++ [ZIP_END]))) = some tail ∧
      zipEntry (zlBlock bytes tail len x ++ (e.code ++ (codes es ++ [ZIP_END]))) (10 + x.length) = some t ∧
      t.rawlen = e.raw ∧ (zlBlock bytes tail len x ++ (e.code ++ (codes es ++ [ZIP_END])))[10 + x.length + e.raw]? =
        some c ∧ (c = ZIP_END ↔ es = []) := by
  obtain ⟨t, ht, -, -, htraw⟩ := he.zipEntry_eq hraw (zlBlock bytes tail len x) (codes es ++ [ZIP_END])
  obtain ⟨c, hc, hend⟩ := byte_before (zlBlock bytes tail len x ++ e.code) hes
  rw [length_append, code_length, zlBlock_length, append_assoc] at hc
  rw [zlBlock_length] at ht
  exact ⟨t, c, by rw [← zlBlock_append, ziplistTailOffset_zlBlock htail], ht, htraw, hc, hend⟩

/-- The last entry moves with the others, unless it is the one behind the gap. -/
theorem tail_behind {c : UInt8} {tail x y q : ℕ} {k : ℤ} {large' : Bool} (hend : c = ZIP_END ↔ es = [])
    (htail : 10 + (x + (codes (e :: es).dropLast).length) = tail) (hk : (x : ℤ) + k = y)
    (hsize : 11 + (y + (codes (⟨large', q, e.body⟩ :: es)).length) < 2 ^ 32) :
    (((tail : ℤ) + k + if c ≠ ZIP_END then (zipPrevSize large' : ℤ) - zipPrevSize e.large
      else 0) % 2 ^ 32).toNat =
      10 + (y + (codes (⟨large', q, e.body⟩ :: es : List ZEntry).dropLast).length) := by
  cases es with
  | nil =>
    rw [if_neg (not_not_intro (hend.mpr rfl))]
    simp only [dropLast_singleton] at htail ⊢
    rw [show (codes []).length = 0 from rfl] at htail ⊢
    omega
  | cons e' es =>
    rw [if_pos (mt hend.mp (cons_ne_nil _ _))]
    have hle := codes_dropLast_le (e' :: es)
    simp only [dropLast_cons_cons, codes_cons_length, ZEntry.raw] at htail hsize hle ⊢
    omega

theorem ziplistInsertGap_eq {large' force : Bool} {r : ℕ} {g : Bytes} (he : ZEntry.Ok ⟨large', r, e.body⟩)
    (hes : ∀ e ∈ es, e.Ok)
    (hfield : (if force then zipStorePrevEntryLengthLarge r else zipStorePrevEntryLength r) = zipPrevField large' r)
    (hg : g.length + zipPrevSize e.large = r + zipPrevSize large')
    (hsize : 11 + (a.length + (codes (e :: es)).length) + g.length < 2 ^ 32) :
    ∃ w : Bytes, w.length = r ∧ ziplistInsertGap (zlBlock (11 + (a.length + (codes (e :: es)).length) + g.length)
          (10 + (a.length + (codes (e :: es).dropLast).length)) len (a ++ (codes (e :: es) ++ g) ++ [ZIP_END]))
        (10 + a.length) r (11 + (a.length + (codes (e :: es)).length))
        ((zipPrevSize large' : ℤ) - zipPrevSize e.large) force =
      some (zlFrame len (a ++ w) (⟨large', r, e.body⟩ :: es)) := by
  have hfive : zipPrevSize large' ≤ 5 := by cases large' <;> decide
  have hcode : codes (e :: es) = zipPrevField e.large e.prevlen ++ (e.body ++ codes es) := by
    rw [codes_cons, ZEntry.code, append_assoc]
  have hcodelen : (codes (e :: es)).length = zipPrevSize e.large + (e.body ++ codes es).length := by
    rw [hcode, length_append, zipPrevField_length]
  generalize hbytes : 11 + (a.length + (codes (e :: es)).length) + g.length = bytes at hsize ⊢
  generalize htail : 10 + (a.length + (codes (e :: es).dropLast).length) = tail
  generalize hbody : e.body ++ codes es = body at hcode hcodelen
  have htaillt : tail < 2 ^ 32 := by
    have hle := codes_dropLast_le (e :: es)
    omega
  -- the move: the end of what lies before the entry's bytes goes with them
  have hpre : (zlBlock bytes tail len a).length = 10 + a.length := zlBlock_length _ _ _ _
  generalize hp : zlBlock bytes tail len a ++ zipPrevField e.large e.prevlen = p
  have hq : p.length = 10 + a.length + zipPrevSize e.large := by
    rw [← hp, length_append, hpre, zipPrevField_length]
  have hread := read_last p body (g ++ [ZIP_END]) (k := zipPrevSize large') (by omega)
  have hblock : p ++ body ++ (g ++ [ZIP_END]) =
      zlBlock bytes tail len a ++ (codes (e :: es) ++ g) ++ [ZIP_END] := by
    rw [hcode, ← hp]
    simp [append_assoc]
  generalize hw : p.drop _ = w at hread
  have hwlen : w.length = zipPrevSize large' := by
    rw [← hw, length_drop]
    omega
  have hsrc : (((10 + a.length : ℕ) : ℤ) - ((zipPrevSize large' : ℤ) - zipPrevSize e.large)).toNat =
      p.length - zipPrevSize large' := by
    omega
  have hlen : (((11 + (a.length + (codes (e :: es)).length) : ℕ) : ℤ) - (10 + a.length : ℕ) - 1 +
      ((zipPrevSize large' : ℤ) - zipPrevSize e.large)).toNat = zipPrevSize large' + body.length := by
    omega
  rw [hblock] at hread
  have hsum : (codes (e :: es) ++ g).length = (codes (e :: es)).length + g.length := length_append
  have hsum' : (w ++ body).length = w.length + body.length := length_append
  obtain ⟨room, hroom, hmove⟩ := @move_within _ _ _ _ _ r (10 + a.length + r) _ _ hread (by rw [hpre]) (by omega)
  refine ⟨room, hroom, ?_⟩
  -- the new length in its field
  have hplace : 10 + a.length + r = (zlBlock bytes tail len (a ++ room)).length := by
    rw [zlBlock_length, length_append, hroom, Nat.add_assoc]
  have hwrite : Memory.write (zlBlock bytes tail len a ++ room ++ (w ++ body) ++ [ZIP_END])
      (10 + a.length + r) (zipPrevField large' r) = some (zlBlock bytes tail len (a ++ room) ++
        (ZEntry.code ⟨large', r, e.body⟩ ++ (codes es ++ [ZIP_END]))) := by
    have hwrite' := @write_append _ (zlBlock bytes tail len (a ++ room)) w (body ++ [ZIP_END])
      (zipPrevField large' r) _ hplace (by rw [zipPrevField_length, hwlen])
    rw [zlBlock_append, ← hbody] at hwrite' ⊢
    simpa only [ZEntry.code, append_assoc] using hwrite'
  have hraw : ZEntry.raw ⟨large', r, e.body⟩ < 2 ^ 32 := by
    change zipPrevSize large' + e.body.length < 2 ^ 32
    rw [← hbody, length_append] at hcodelen
    omega
  obtain ⟨t, c, hheader, ht, htraw, hc, hend⟩ := @zlBlock_behind len _ es bytes tail he hraw hes htaillt (a ++ room)
  rw [← zlBlock_length bytes tail len, ← hplace] at ht hc
  rw [ziplistInsertGap, hsrc, hlen, zlBlock_append, zlBlock_append, hmove, bind_some, hfield, hwrite]
  simp only [bind_some, hheader, ht, htraw, hc]
  have hnewbytes :
    bytes = 11 + ((a ++ room).length + (codes (⟨large', r, e.body⟩ :: es : List ZEntry)).length) := by
    simp only [length_append, codes_cons_length, ZEntry.raw] at hbytes ⊢
    omega
  have hnewtail := tail_behind (k := r) (y := (a ++ room).length) hend htail (by rw [length_append, hroom]; omega)
    (hnewbytes ▸ hsize)
  rw [hnewtail, ← zlBlock_append, ziplistSetTailOffset_zlBlock, zlFrame, ← hnewbytes, codes_cons,
    append_assoc (ZEntry.code _)]

theorem zlFrame_byte_at {a b : List ZEntry} (hb : ∀ e ∈ b, e.Ok) :
    ∃ c, (zlFrame len [] (a ++ b))[10 + (codes a).length]? = some c ∧ (c = ZIP_END ↔ b = []) := by
  obtain ⟨pre, hpre, heq⟩ := zlFrame_eq len [] (a ++ b)
  obtain ⟨c, hc, hend⟩ := byte_before (pre ++ codes a) hb
  refine ⟨c, ?_, hend⟩
  rw [length_append, hpre, append_assoc] at hc
  rw [heq, codes_append, append_assoc, ← hc, length_nil, Nat.add_zero]

theorem ziplistIncrLength_zlFrame (hn : len ≤ 65535) (a : Bytes) (es : List ZEntry) (incr : ℤ) :
    ziplistIncrLength (zlFrame len a es) incr =
      some (zlFrame (if len < 65535 then ((len + incr) % 2 ^ 16).toNat else len) a es) := by
  have hlen : ziplistLength (zlFrame len a es) = some len := ziplistLength_zlBlock (by omega)
  rw [ziplistIncrLength, hlen, bind_some]
  split_ifs
  · exact ziplistSetLength_zlBlock _
  · rfl

theorem zlFrame_bytes (h : 11 + (a.length + (codes es).length) < 2 ^ 32) :
    ziplistBytes (zlFrame len a es) = some (11 + (a.length + (codes es).length)) := ziplistBytes_zlBlock h

theorem zlFrame_tailOffset (h : 11 + (a.length + (codes es).length) < 2 ^ 32) :
    ziplistTailOffset (zlFrame len a es) = some (10 + (a.length + (codes es.dropLast).length)) := by
  have hle := codes_dropLast_le es
  exact ziplistTailOffset_zlBlock (by omega)

theorem ziplistInsertPrevlen_eq {a b : List ZEntry} (h : Linked 0 (a ++ b)) (hok : ∀ e ∈ a ++ b, e.Ok)
    (hsize : zlSize (a ++ b) < 2 ^ 32) :
    ziplistInsertPrevlen (zlFrame len [] (a ++ b)) (10 + (codes a).length) = some (lastRaw 0 a) := by
  obtain ⟨c, hc, hend⟩ := @zlFrame_byte_at len a b fun e he => hok e (by simp [he])
  rw [ziplistInsertPrevlen, hc, bind_some]
  cases hb : b with
  | cons e b' =>
    subst hb
    rw [if_pos (mt hend.mp (cons_ne_nil _ _)), zlFrame_append (cons_ne_nil _ _), nil_append,
      zlFrame_decodePrevlen (hok e (by simp)), map_some]
    exact congrArg some (linked_append.mp h).2.1
  | nil =>
    subst hb
    rw [append_nil] at hok hsize ⊢
    have htail := @zlFrame_tailOffset len [] a (by simpa [zlSize] using hsize)
    rw [if_neg (not_not_intro (hend.mpr rfl)), htail, bind_some]
    rcases eq_nil_or_concat a with rfl | ⟨a', y, rfl⟩
    · rfl
    · rw [concat_eq_append] at hok hsize ⊢
      have hy : y.Ok := hok y (by simp)
      have hraw : y.raw < 2 ^ 32 := by
        rw [zlSize, codes_append, codes_singleton, length_append, code_length] at hsize
        omega
      obtain ⟨c', hc', hend'⟩ := @zlFrame_byte len (codes a') [y] (by simpa using hy)
      rw [dropLast_concat, zlFrame_append (cons_ne_nil _ _), nil_append, length_nil, Nat.zero_add,
        hc', bind_some, if_pos (mt hend'.mp (cons_ne_nil _ _)), zlFrame_rawEntryLength hy hraw,
        lastRaw_concat]

theorem newEntry_code (a : List ZEntry) (s : Bytes) :
    zipStorePrevEntryLength (lastRaw 0 a) ++ zipBody s = (newEntry a s).code := by
  rw [zipStorePrevEntryLength_eq, ZEntry.code, newEntry]

theorem newEntry_raw (a : List ZEntry) (s : Bytes) :
    (zipStorePrevEntryLength (lastRaw 0 a)).length + (zipBody s).length = (newEntry a s).raw := by
  rw [← length_append, newEntry_code, code_length]

def zlSucc (len : ℕ) : ℕ := if len < 65535 then len + 1 else len

theorem ziplistIncrLength_one (hn : len ≤ 65535) (a : Bytes) (es : List ZEntry) :
    ziplistIncrLength (zlFrame len a es) 1 = some (zlFrame (zlSucc len) a es) := by
  rw [ziplistIncrLength_zlFrame hn, zlSucc]
  congr 2
  split_ifs
  · omega
  · rfl

theorem ziplistInsert_end {a : List ZEntry} {s : Bytes} (h : Linked 0 a) (hok : ∀ e ∈ a, e.Ok)
    (hs : zipEntryBody s = some (zipBody s)) (hn : len ≤ 65535) (hsize : zlSize (a ++ [newEntry a s]) < 2 ^ 32) :
    _ziplistInsert (zlFrame len [] a) (10 + (codes a).length) s =
      some (zlFrame (zlSucc len) [] (a ++ [newEntry a s])) := by
  have hpos : 0 < (newEntry a s).raw := by
    rw [← newEntry_raw, zipStorePrevEntryLength_eq, zipPrevField_length]
    cases decide (ZIP_BIG_PREVLEN ≤ lastRaw 0 a) <;> simp
  rw [zlSize, codes_append, codes_singleton, length_append, code_length] at hsize
  have hbytes := @zlFrame_bytes len [] a (by rw [length_nil]; omega)
  have hprev := @ziplistInsertPrevlen_eq len a [] (by rwa [append_nil]) (by simpa using hok)
    (by rw [append_nil, zlSize]; omega)
  obtain ⟨c, hc, hend⟩ := @zlFrame_byte_at len a [] (by simp)
  rw [append_nil] at hprev hc
  have hresize := @zlFrame_resize len [] a (newEntry a s).raw (by rw [length_nil]; omega)
  simp only [length_nil, Nat.zero_add, nil_append] at hbytes hresize
  rw [_ziplistInsert, hbytes, bind_some, hprev, bind_some, hs, bind_some]
  simp only [newEntry_raw, newEntry_code, hc, bind_some]
  rw [if_neg (not_not_intro (hend.mpr rfl))]
  set n := newEntry a s
  have hforce : decide ((0 : ℤ) = -4 ∧ n.raw < 4) = false := by simp
  have hlen : (((11 + (codes a).length : ℕ) : ℤ) + (n.raw : ℕ) + 0).toNat =
      11 + (codes a).length + n.raw := by omega
  -- the byte is still the mark of the end
  have hbyte : (zlBlock (11 + (codes a).length + n.raw) (10 + (codes a.dropLast).length) len
      (codes a ++ Memory.realloc 0 [ZIP_END] n.raw ++ [ZIP_END]))[10 + (codes a).length]? =
        some ZIP_END := by
    obtain ⟨k, hk⟩ := Nat.exists_eq_add_of_lt hpos
    have hfirst : Memory.realloc 0 [ZIP_END] n.raw = ZIP_END :: replicate k 0 := by
      rw [hk, realloc_of_le 0 (by simp)]
      simp
    rw [hfirst, append_assoc, zlBlock_append, ← zlBlock_length _ _ len (codes a)]
    exact getElem?_at _ _ _
  have hwrite := @write_zlBlock (11 + (codes a).length + n.raw) (10 + (codes a).length) len (codes a)
    (Memory.realloc 0 [ZIP_END] n.raw) [ZIP_END] n.code _ rfl (by rw [code_length, realloc_length])
  have hframe : zlBlock (11 + (codes a).length + n.raw) (10 + (codes a).length) len
      (codes a ++ n.code ++ [ZIP_END]) = zlFrame len [] (a ++ [n]) := by
    rw [zlFrame, dropLast_concat, codes_append, codes_singleton, length_append, code_length,
      length_nil, Nat.zero_add, Nat.zero_add, nil_append, Nat.add_assoc]
  simp only [bind_some, hforce, Bool.false_eq_true, if_false, hlen, hresize, hbyte]
  rw [if_neg (not_not_intro rfl), ziplistSetTailOffset_zlBlock, bind_some, if_neg (not_not_intro rfl),
    bind_some, hwrite, bind_some, hframe, ziplistIncrLength_one hn]

theorem zlFrame_write_before {w bs : Bytes} (h : bs.length = w.length) :
    Memory.write (zlFrame len (a ++ w) es) (10 + a.length) bs = some (zlFrame len (a ++ bs) es) := by
  rw [zlFrame, zlFrame, length_append, length_append, h]
  exact write_zlBlock rfl h

theorem ziplistInsert_before {a b : List ZEntry} {s : Bytes} (h : Linked 0 (a ++ e :: b))
    (hok : ∀ e' ∈ a ++ e :: b, e'.Ok) (hs : zipEntryBody s = some (zipBody s)) (hn : len ≤ 65535)
    (hsize : zlSize (zlInsert a (e :: b) s) < 2 ^ 32) :
    _ziplistInsert (zlFrame len [] (a ++ e :: b)) (10 + (codes a).length) s =
      some (zlFrame (zlSucc len) [] (zlInsert a (e :: b) s)) := by
  obtain ⟨hdiff, hfield, hroom⟩ := insert_form e.large (newEntry a s).raw
  have he : e.Ok := hok e (by simp)
  have hb : ∀ e' ∈ b, e'.Ok := fun e' he' => hok e' (by simp [he'])
  rw [zlInsert, linkNext] at hsize ⊢
  generalize hlarge : (decide (ZIP_BIG_PREVLEN ≤ (newEntry a s).raw) ||
    (true && e.large && decide ((newEntry a s).raw < 4))) = large' at hsize hdiff hfield hroom ⊢
  set e' : ZEntry := ⟨large', (newEntry a s).raw, e.body⟩
  -- the sizes of the blocks on the way
  have hle := relink_length_le (zipPrevSize large' + e.body.length) b
  rw [zlSize, codes_append, length_append, codes_cons_length, codes_cons_length] at hsize
  have hbytes' : (codes (e :: b)).length = zipPrevSize e.large + e.body.length + (codes b).length := by
    rw [codes_cons_length, ZEntry.raw]
  have hraw' : e'.raw = zipPrevSize large' + e.body.length := rfl
  rw [hraw'] at hsize ⊢
  obtain ⟨k, hk⟩ : ∃ k, k + zipPrevSize e.large = (newEntry a s).raw + zipPrevSize large' :=
    ⟨_, Nat.sub_add_cancel hroom⟩
  have hframe : zlFrame len [] (a ++ e :: b) = zlFrame len (codes a) (e :: b) := by
    rw [zlFrame_append (cons_ne_nil _ _), nil_append]
  have hbytes := @zlFrame_bytes len (codes a) (e :: b) (by omega)
  have hprev := @ziplistInsertPrevlen_eq len a (e :: b) h hok (by rw [zlSize, codes_append, length_append]; omega)
  obtain ⟨c, hc, hend⟩ := @zlFrame_byte len (codes a) (e :: b) (fun e' he' => hok e' (by simp at he' ⊢; tauto))
  have hc0 : c ≠ ZIP_END := mt hend.mp (cons_ne_nil _ _)
  have hresize := @zlFrame_resize len (codes a) (e :: b) k (by omega)
  have hlen : (((11 + ((codes a).length + (codes (e :: b)).length) : ℕ) : ℤ) + ((newEntry a s).raw : ℕ) +
      ((zipPrevSize large' : ℤ) - zipPrevSize e.large)).toNat =
      11 + ((codes a).length + (codes (e :: b)).length) + k := by omega
  have hgk : (Memory.realloc 0 [ZIP_END] k).length = k := realloc_length _ _ _
  generalize Memory.realloc 0 [ZIP_END] k = g at hresize hgk
  have hbyte : ∀ bytes tail, ∃ c, (zlBlock bytes tail len (codes a ++ (codes (e :: b) ++ g) ++ [ZIP_END]))[10 +
      (codes a).length]? = some c ∧ c ≠ ZIP_END := by
    intro bytes tail
    obtain ⟨c, hc, hne, -⟩ := he.head (zlBlock bytes tail len (codes a)) (codes b ++ g ++ [ZIP_END])
    refine ⟨c, ?_, hne⟩
    rw [zlBlock_length, ← zlBlock_append] at hc
    rw [show codes (e :: b) ++ g = e.code ++ (codes b ++ g) by rw [codes_cons, append_assoc]]
    simpa only [append_assoc] using hc
  obtain ⟨c', hc', hne'⟩ := hbyte (11 + ((codes a).length + (codes (e :: b)).length) + k)
    (10 + ((codes a).length + (codes (e :: b).dropLast).length))
  -- the entry behind the room takes the new length, and carries on what that changes
  have hnew : e'.Ok := by
    refine ⟨?_, show (newEntry a s).raw < 2 ^ 32 by omega, he.reads⟩
    intro (hsmall : large' = false)
    rw [← hlarge] at hsmall
    simp only [Bool.or_eq_false_iff, decide_eq_false_iff_not, not_le] at hsmall
    exact hsmall.1
  subst hgk
  obtain ⟨w, hw, hgap⟩ := @ziplistInsertGap_eq len (codes a) e b large' _ _ g hnew hb hfield hk (by omega)
  have hcascade : (if (zipPrevSize large' : ℤ) - zipPrevSize e.large ≠ 0 then
        ziplistCascadeUpdate (zlFrame len (codes a ++ w) (e' :: b))
          (10 + (codes a).length + (newEntry a s).raw)
      else some (zlFrame len (codes a ++ w) (e' :: b))) =
      some (zlFrame len (codes a ++ w)
        (e' :: relink (zipPrevSize large' + e.body.length) b)) := by
    by_cases hzero : (zipPrevSize large' : ℤ) - zipPrevSize e.large = 0
    · have hsame : zipPrevSize large' + e.body.length = e.raw := by
        rw [ZEntry.raw]
        omega
      rw [if_neg (not_not_intro hzero), hsame, (linked_append.mp h).2.2.2.relink_eq]
    · have hplace : 10 + (codes a).length + (newEntry a s).raw = 10 + (codes a ++ w).length := by
        rw [length_append, hw, Nat.add_assoc]
      rw [if_pos hzero, hplace]
      refine ziplistCascadeUpdate_eq hnew hb ?_
      rw [length_append, hw, codes_cons_length, hraw']
      omega
  rw [hframe] at hprev ⊢
  rw [_ziplistInsert, hbytes, bind_some, hprev, bind_some, hs, bind_some]
  simp only [newEntry_raw, newEntry_code, hc, bind_some]
  rw [if_pos hc0, zlFrame_byteDiff he, bind_some]
  simp only [hdiff, hlen, hresize, bind_some, hc']
  rw [if_pos hne', hgap, bind_some, hcascade, bind_some,
    zlFrame_write_before (by rw [code_length, hw]), bind_some, ziplistIncrLength_one hn,
    zlFrame_append (cons_ne_nil _ _), nil_append, zlFrame_cons (cons_ne_nil _ _)]

theorem ziplistInsert_eq {a b : List ZEntry} {s : Bytes} (h : Linked 0 (a ++ b)) (hok : ∀ e ∈ a ++ b, e.Ok)
    (hs : zipEntryBody s = some (zipBody s)) (hn : len ≤ 65535) (hsize : zlSize (zlInsert a b s) < 2 ^ 32) :
    _ziplistInsert (zlFrame len [] (a ++ b)) (10 + (codes a).length) s =
      some (zlFrame (zlSucc len) [] (zlInsert a b s)) := by
  cases b with
  | nil =>
    rw [append_nil] at h hok ⊢
    exact ziplistInsert_end h hok hs hn hsize
  | cons e b => exact ziplistInsert_before h hok hs hn hsize

end Insert

/-! ### Deletion -/

section Delete

variable {len : ℕ} {a : Bytes} {e : ZEntry} {es : List ZEntry}

theorem ziplistSkip_eq (pre : Bytes) (hes : ∀ e ∈ es, e.Ok) (hsize : (codes es).length < 2 ^ 32)
    (num deleted : ℕ) : ziplistSkip (pre ++ (codes es ++ [ZIP_END])) num pre.length deleted =
      some (pre.length + (codes (es.take num)).length, deleted + (es.take num).length) := by
  induction num generalizing pre es deleted with
  | zero => rfl
  | succ num ih =>
    obtain ⟨c, hc, hend⟩ := byte_before pre hes
    rw [ziplistSkip, hc, bind_some]
    cases es with
    | nil => rw [if_pos (hend.mpr rfl), take_nil]; rfl
    | cons e es =>
      rw [codes_cons_length] at hsize
      have hraw := (hes e (by simp)).zipRawEntryLength_eq (by omega) pre (codes es ++ [ZIP_END])
      have hnext := @ih es (pre ++ e.code) (fun e' he' => hes e' (by simp [he'])) (by omega) (deleted + 1)
      rw [length_append, code_length] at hnext
      rw [if_neg (mt hend.mp (cons_ne_nil _ _)), codes_cons, append_assoc e.code, hraw, bind_some,
        ← append_assoc pre, hnext, take_succ_cons, codes_cons_length, length_cons]
      congr 2
      · omega
      · omega

/-- The entry behind the deleted ones takes the length `q`, and moves to their place. -/
theorem ziplistDeleteGap_eq {d : Bytes} {q : ℕ} (he : e.Ok) (hes : ∀ e ∈ es, e.Ok) (hq : q < 2 ^ 32)
    (hroom : zipPrevSize (ZIP_BIG_PREVLEN ≤ q) ≤ d.length + zipPrevSize e.large)
    (hsize : 11 + (a.length + d.length + (codes (e :: es)).length) < 2 ^ 32) : ∃ junk : Bytes, ziplistDeleteGap
        (zlBlock (11 + (a.length + d.length + (codes (e :: es)).length))
          (10 + (a.length + d.length + (codes (e :: es).dropLast).length)) len
          (a ++ d ++ (codes (e :: es) ++ [ZIP_END]))) (10 + a.length) (10 + a.length + d.length) q d.length =
      some (zlBlock (11 + (a.length + d.length + (codes (e :: es)).length))
        (10 + (a.length + (codes (⟨ZIP_BIG_PREVLEN ≤ q, q, e.body⟩ :: es : List ZEntry).dropLast).length)) len
        (a ++ codes (⟨ZIP_BIG_PREVLEN ≤ q, q, e.body⟩ :: es) ++ junk),
        (zipPrevSize (ZIP_BIG_PREVLEN ≤ q) : ℤ) - zipPrevSize e.large) := by
  have hnew : ZEntry.Ok ⟨ZIP_BIG_PREVLEN ≤ q, q, e.body⟩ := by
    refine ⟨?_, hq, he.reads⟩
    intro hsmall
    simpa using hsmall
  have hfield : zipStorePrevEntryLength q = zipPrevField (ZIP_BIG_PREVLEN ≤ q) q := zipStorePrevEntryLength_eq q
  generalize hbytes : 11 + (a.length + d.length + (codes (e :: es)).length) = bytes at *
  generalize htail : 10 + (a.length + d.length + (codes (e :: es).dropLast).length) = tail
  have hdiff : zipPrevLenByteDiff (zlBlock bytes tail len (a ++ d ++ (codes (e :: es) ++ [ZIP_END])))
      (10 + a.length + d.length) q = some ((zipPrevSize (ZIP_BIG_PREVLEN ≤ q) : ℤ) - zipPrevSize e.large) := by
    have hsize' := he.zipDecodePrevlensize_eq (zlBlock bytes tail len (a ++ d)) (codes es ++ [ZIP_END])
    rw [zlBlock_length, length_append, ← Nat.add_assoc, ← append_assoc e.code, ← codes_cons,
      ← zlBlock_append] at hsize'
    rw [zipPrevLenByteDiff, hsize', map_some, hfield, zipPrevField_length]
  generalize decide (ZIP_BIG_PREVLEN ≤ q) = large' at *
  set e' : ZEntry := ⟨large', q, e.body⟩
  rw [codes_cons_length, ZEntry.raw] at hbytes
  -- the field of the new length ends where the old one does
  obtain ⟨d', w, hsplit, hw⟩ : ∃ d' w : Bytes, d ++ zipPrevField e.large e.prevlen = d' ++ w ∧
      w.length = zipPrevSize large' := by
    refine ⟨(d ++ zipPrevField e.large e.prevlen).take (d.length + zipPrevSize e.large - zipPrevSize large'), _,
      (take_append_drop _ _).symm, ?_⟩
    rw [length_drop, length_append, zipPrevField_length]
    omega
  have hd' : d'.length + zipPrevSize large' = d.length + zipPrevSize e.large := by
    have hlen := congrArg List.length hsplit
    rw [length_append, length_append, zipPrevField_length, hw] at hlen
    exact hlen.symm
  have hp : (((10 + a.length + d.length : ℕ) : ℤ) - ((zipPrevSize large' : ℤ) - zipPrevSize e.large)).toNat =
      10 + (a ++ d').length := by
    rw [length_append]
    omega
  have hblock : a ++ d ++ (codes (e :: es) ++ [ZIP_END]) = a ++ d' ++ w ++ (e.body ++ codes es ++ [ZIP_END]) := by
    rw [codes_cons, ZEntry.code, append_assoc a d' w, ← hsplit]
    simp [append_assoc]
  have hwrite := @write_zlBlock bytes tail len (a ++ d') w (e.body ++ codes es ++ [ZIP_END]) (zipPrevField large' q) _
    rfl (by rw [zipPrevField_length, hw])
  have hentry : zlBlock bytes tail len (a ++ d' ++ zipPrevField large' q ++ (e.body ++ codes es ++ [ZIP_END])) =
      zlBlock bytes tail len (a ++ d') ++ (e'.code ++ (codes es ++ [ZIP_END])) := by
    rw [← zlBlock_append, ZEntry.code]
    simp [append_assoc, e']
  rw [hentry] at hwrite
  have hraw : e'.raw < 2 ^ 32 := by
    change zipPrevSize large' + e.body.length < 2 ^ 32
    omega
  have htaillt : tail < 2 ^ 32 := by
    have hle := codes_dropLast_le (e :: es)
    rw [codes_cons_length, ZEntry.raw] at hle
    omega
  obtain ⟨t, c, hheader, ht, htraw, hc, hend⟩ := @zlBlock_behind len _ es bytes tail hnew hraw hes htaillt (a ++ d')
  have hnewtail := @tail_behind e es c tail _ a.length q (-d.length) large' hend htail (by push_cast; ring)
    (by rw [codes_cons_length]; simp only [ZEntry.raw]; omega)
  rw [← sub_eq_add_neg] at hnewtail
  -- the tail moves over what was deleted
  have hmove : ∀ tail' : ℕ, ∃ junk : Bytes, Memory.move (zlBlock bytes tail' len (a ++ d') ++
      (e'.code ++ (codes es ++ [ZIP_END]))) (10 + a.length) (10 + (a ++ d').length)
      (bytes - (10 + (a ++ d').length) - 1) =
        some (zlBlock bytes tail' len (a ++ codes (e' :: es) ++ junk)) := by
    intro tail'
    have hmoved : bytes - (10 + (a ++ d').length) - 1 = (codes (e' :: es)).length := by
      rw [codes_cons_length, length_append]
      change _ = zipPrevSize large' + e.body.length + _
      omega
    have hread := @read_append _ (zlBlock bytes tail' len (a ++ d')) (codes (e' :: es)) [ZIP_END]
      (10 + (a ++ d').length) _ (zlBlock_length _ _ _ _).symm hmoved
    have hshape : zlBlock bytes tail' len (a ++ d') ++ (e'.code ++ (codes es ++ [ZIP_END])) =
        zlBlock bytes tail' len (a ++ d') ++ codes (e' :: es) ++ [ZIP_END] := by
      rw [codes_cons]
      simp [append_assoc]
    have htake : (zlBlock bytes tail' len (a ++ d') ++ codes (e' :: es) ++ [ZIP_END]).take
        (10 + a.length) = zlBlock bytes tail' len a := by
      rw [zlBlock_append, append_assoc, append_assoc, ← zlBlock_length bytes tail' len a, take_left]
    have hmove := @move_eq _ _ _ (10 + a.length) _ _ hread (by simp only [length_append, zlBlock_length]; omega)
    rw [htake, ← zlBlock_append, ← zlBlock_append] at hmove
    rw [hshape]
    exact ⟨_, hmove⟩
  obtain ⟨junk, hjunk⟩ := hmove
    (10 + (a.length + (codes (e' :: es).dropLast).length))
  refine ⟨junk, ?_⟩
  rw [ziplistDeleteGap, hdiff, bind_some]
  simp only [hp, hblock, hfield, hwrite, bind_some, hheader, ht, htraw, hc, hnewtail]
  rw [← zlBlock_append, ziplistSetTailOffset_zlBlock, bind_some, ziplistBytes_zlBlock hsize, bind_some,
    zlBlock_append, hjunk, map_some]

/-- The length of a list that has `k` elements less. -/
def zlMinus (len k : ℕ) : ℕ := if len < 65535 then (((len : ℤ) + -(k : ℤ)) % 2 ^ 16).toNat else len

theorem ziplistResize_cut (bytes tail len : ℕ) {m : Bytes} (junk : Bytes) (hm : 11 + m.length < 2 ^ 32) :
    ziplistResize (zlBlock bytes tail len (m ++ junk)) (11 + m.length) =
      some (zlBlock (11 + m.length) tail len (m ++ [ZIP_END])) := by
  rw [ziplistResize_zlBlock _ hm, realloc_of_ge 0 (by simp), take_left]

/-- The entries behind the deleted ones, before the change is carried on. -/
def closeGap (q : ℕ) : List ZEntry → List ZEntry
  | [] => []
  | e :: es => ⟨ZIP_BIG_PREVLEN ≤ q, q, e.body⟩ :: es

def gapDiff (q : ℕ) : List ZEntry → ℤ
  | [] => 0
  | e :: _ => (zipPrevSize (ZIP_BIG_PREVLEN ≤ q) : ℤ) - zipPrevSize e.large

theorem closeGap_length (q : ℕ) (b : List ZEntry) :
    ((codes (closeGap q b)).length : ℤ) = (codes b).length + gapDiff q b := by
  cases b with
  | nil => rfl
  | cons e b =>
    simp only [closeGap, gapDiff, codes_cons_length, ZEntry.raw]
    omega

theorem closeGap_le (q : ℕ) (b : List ZEntry) :
    (codes (closeGap q b)).length ≤ (codes (linkNext false q b)).length := by
  cases b with
  | nil => exact Nat.le_refl _
  | cons e b =>
    have hle := relink_length_le (ZEntry.raw ⟨ZIP_BIG_PREVLEN ≤ q, q, e.body⟩) b
    simp only [closeGap, linkNext, Bool.false_and, Bool.or_false, codes_cons_length]
    omega

/-- The last part of a deletion: a change of length is carried on. -/
theorem ziplistDelete_cascade {a d b : List ZEntry} (h : Linked 0 (a ++ (d ++ b))) (hok : ∀ e ∈ b, e.Ok)
    (hsize : zlSize (zlDelete a b) < 2 ^ 32) : (if gapDiff (lastRaw 0 a) b ≠ 0 then
        ziplistCascadeUpdate (zlFrame len [] (a ++ closeGap (lastRaw 0 a) b)) (10 + (codes a).length)
      else some (zlFrame len [] (a ++ closeGap (lastRaw 0 a) b))) = some (zlFrame len [] (zlDelete a b)) := by
  cases b with
  | nil => rfl
  | cons e b =>
    have he : e.Ok := hok e (by simp)
    have hlink : linkNext false (lastRaw 0 a) (e :: b) = ⟨ZIP_BIG_PREVLEN ≤ lastRaw 0 a, lastRaw 0 a, e.body⟩ ::
        relink (ZEntry.raw ⟨ZIP_BIG_PREVLEN ≤ lastRaw 0 a, lastRaw 0 a, e.body⟩) b := by
      simp [linkNext, Bool.false_and, Bool.or_false]
    rw [zlDelete, hlink] at hsize ⊢
    rw [closeGap]
    have hnew : lastRaw 0 a < 2 ^ 32 → ZEntry.Ok ⟨ZIP_BIG_PREVLEN ≤ lastRaw 0 a, lastRaw 0 a, e.body⟩ := by
      intro hq
      exact ⟨fun hsmall => by simpa using hsmall, hq, he.reads⟩
    rw [zlSize, codes_append, length_append] at hsize
    by_cases hzero : gapDiff (lastRaw 0 a) (e :: b) = 0
    · have hsame : ZEntry.raw ⟨ZIP_BIG_PREVLEN ≤ lastRaw 0 a, lastRaw 0 a, e.body⟩ = e.raw := by
        simp only [ZEntry.raw, gapDiff] at hzero ⊢
        omega
      rw [if_neg (not_not_intro hzero), hsame, (linked_append.mp (linked_append.mp h).2).2.2.2.relink_eq]
    · have hlast := codes_dropLast_length a
      rw [if_pos hzero, zlFrame_append (cons_ne_nil _ _), zlFrame_append (cons_ne_nil _ _), nil_append]
      exact ziplistCascadeUpdate_eq (hnew (by omega)) (fun e' he' => hok e' (by simp [he'])) hsize

/-- The first part of a deletion: the entries behind the deleted ones are in their place. -/
theorem ziplistDelete_gap {a d b : List ZEntry} (h : Linked 0 (a ++ (d ++ b))) (hok : ∀ e ∈ a ++ (d ++ b), e.Ok)
    (hd : d ≠ []) (hold : zlSize (a ++ (d ++ b)) < 2 ^ 32) :
    ∃ junk : Bytes, ((zlFrame len [] (a ++ (d ++ b)))[10 + (codes a).length + (codes d).length]?.bind fun c =>
        if c ≠ ZIP_END then ziplistDeleteGap (zlFrame len [] (a ++ (d ++ b))) (10 + (codes a).length)
            (10 + (codes a).length + (codes d).length) (lastRaw 0 a) (codes d).length
        else (ziplistSetTailOffset (zlFrame len [] (a ++ (d ++ b))) (10 + (codes a).length - lastRaw 0 a)).map
          fun zl => (zl, 0)) =
      some (zlBlock (zlSize (a ++ (d ++ b))) (10 + (codes (a ++ closeGap (lastRaw 0 a) b).dropLast).length) len
        (codes (a ++ closeGap (lastRaw 0 a) b) ++ junk), gapDiff (lastRaw 0 a) b) := by
  have hbytes : zlSize (a ++ (d ++ b)) = 11 + ((codes a).length + (codes d).length + (codes b).length) := by
    rw [zlSize, codes_append, codes_append, length_append, length_append, Nat.add_assoc]
  obtain ⟨c, hc, hend⟩ := @zlFrame_byte_at len (a ++ d) b fun e he => hok e (by simp [he])
  rw [append_assoc, codes_append, length_append, ← Nat.add_assoc] at hc
  rw [hc, bind_some]
  cases b with
  | nil =>
    have hlast := codes_dropLast_length a
    refine ⟨codes d ++ [ZIP_END], ?_⟩
    have htail : 10 + (codes a).length - lastRaw 0 a = 10 + (codes a.dropLast).length := by omega
    rw [if_neg (not_not_intro (hend.mpr rfl)), zlFrame, ziplistSetTailOffset_zlBlock, map_some, zlSize,
      length_nil, Nat.zero_add, htail]
    simp [closeGap, gapDiff, append_nil, nil_append, codes_append, append_assoc]
  | cons e b =>
    have he : e.Ok := hok e (by simp)
    rw [hbytes] at hold
    have hq : lastRaw 0 a < 2 ^ 32 := by
      have hlast := codes_dropLast_length a
      omega
    -- a long length was stored in the first of the deleted entries
    have hroom : zipPrevSize (ZIP_BIG_PREVLEN ≤ lastRaw 0 a) ≤ (codes d).length + zipPrevSize e.large := by
      obtain ⟨first, d', rfl⟩ := exists_cons_of_ne_nil hd
      obtain ⟨-, hform, -⟩ := (linked_append.mp h).2
      by_cases hbig : ZIP_BIG_PREVLEN ≤ lastRaw 0 a
      · have hlarge : first.large = true := by
          by_contra hsmall
          exact absurd (hform (by simpa using hsmall)) (Nat.not_lt.mpr hbig)
        rw [codes_cons_length, ZEntry.raw, hlarge, zipPrevSize_true, decide_eq_true hbig, zipPrevSize_true]
        omega
      · have hone : 1 ≤ zipPrevSize e.large := by cases e.large <;> decide
        rw [decide_eq_false hbig, zipPrevSize_false]
        omega
    obtain ⟨junk, hgap⟩ := @ziplistDeleteGap_eq len (codes a) e b (codes d) (lastRaw 0 a) he
      (fun e' he' => hok e' (by simp [he'])) hq hroom (by omega)
    refine ⟨junk, ?_⟩
    have hframe : zlFrame len [] (a ++ (d ++ e :: b)) =
        zlBlock (11 + ((codes a).length + (codes d).length + (codes (e :: b)).length))
          (10 + ((codes a).length + (codes d).length + (codes (e :: b).dropLast).length)) len
          (codes a ++ codes d ++ (codes (e :: b) ++ [ZIP_END])) := by
      rw [← append_assoc, zlFrame_append (cons_ne_nil _ _), codes_append, nil_append, zlFrame,
        length_append]
    rw [if_pos (mt hend.mp (cons_ne_nil _ _)), hframe, hgap, hbytes, closeGap, gapDiff,
      dropLast_append_of_ne_nil (cons_ne_nil _ _), codes_append, codes_append, length_append]

theorem ziplistDelete_eq {a d b : List ZEntry} {num : ℕ} (h : Linked 0 (a ++ (d ++ b)))
    (hok : ∀ e ∈ a ++ (d ++ b), e.Ok) (hd : d ≠ []) (hnum : (d ++ b).take num = d) (hn : len ≤ 65535)
    (hold : zlSize (a ++ (d ++ b)) < 2 ^ 32) (hsize : zlSize (zlDelete a b) < 2 ^ 32) :
    _ziplistDelete (zlFrame len [] (a ++ (d ++ b))) (10 + (codes a).length) num =
      some (zlFrame (zlMinus len d.length) [] (zlDelete a b)) := by
  obtain ⟨junk, hgap⟩ := @ziplistDelete_gap len a d b h hok hd hold
  have hlen := closeGap_length (lastRaw 0 a) b
  have hle := closeGap_le (lastRaw 0 a) b
  set gap := closeGap (lastRaw 0 a) b
  obtain ⟨first, d', rfl⟩ := exists_cons_of_ne_nil hd
  have hokfirst : first.Ok := hok first (by simp)
  have hbytes : zlSize (a ++ (first :: d' ++ b)) =
      11 + ((codes a).length + ((codes (first :: d')).length + (codes b).length)) := by
    rw [zlSize, codes_append, codes_append, length_append, length_append]
  have hraw : first.raw < 2 ^ 32 := by
    rw [codes_cons_length] at hbytes
    omega
  have hpos : (codes (first :: d')).length > 0 := by
    have hone : 1 ≤ zipPrevSize first.large := by cases first.large <;> decide
    rw [codes_cons_length, ZEntry.raw]
    omega
  have hframe : zlFrame len [] (a ++ (first :: d' ++ b)) = zlFrame len (codes a) (first :: (d' ++ b)) := by
    rw [zlFrame_append (by simp), nil_append, cons_append]
  -- the length before the deleted entries, and how far they reach
  have hentry : ∃ r, zipEntry (zlFrame len [] (a ++ (first :: d' ++ b))) (10 + (codes a).length) = some r ∧
      r.prevrawlen = lastRaw 0 a := by
    obtain ⟨r, hr, -, hprev, -⟩ := @zlFrame_zipEntry len (codes a) first (d' ++ b) hokfirst hraw
    exact ⟨r, by rw [hframe, hr], by rw [hprev]; exact (linked_append.mp h).2.1⟩
  have hskip : ziplistSkip (zlFrame len [] (a ++ (first :: d' ++ b))) num (10 + (codes a).length) 0 =
      some (10 + (codes a).length + (codes (first :: d')).length, (first :: d').length) := by
    obtain ⟨pre, hpre, heq⟩ := zlFrame_eq len (codes a) (first :: (d' ++ b))
    have hskip' := @ziplistSkip_eq (first :: d' ++ b) pre (fun e he => hok e (by simp at he ⊢; tauto))
      (by rw [codes_append, length_append]; omega) num 0
    rw [hnum, hpre, cons_append, ← heq, Nat.zero_add] at hskip'
    rw [hframe, hskip']
  obtain ⟨r, hr, hprev⟩ := hentry
  rw [_ziplistDelete, hr, bind_some, hskip]
  simp only [bind_some, Nat.add_sub_cancel_left]
  rw [if_pos hpos, hprev, hgap]
  simp only [bind_some]
  -- the block is cut, and the change is carried on
  have hnew : (codes (a ++ gap)).length = (codes a).length + (codes gap).length := by
    rw [codes_append, length_append]
  rw [zlSize, zlDelete, codes_append, length_append] at hsize
  have hcut : (((zlSize (a ++ (first :: d' ++ b)) : ℤ) - ((codes (first :: d')).length : ℕ) +
      gapDiff (lastRaw 0 a) b) %
      2 ^ 32).toNat = 11 + (codes (a ++ gap)).length := by omega
  rw [ziplistBytes_zlBlock hold, bind_some, hcut, ziplistResize_cut _ _ _ _ (by omega), bind_some]
  have hframe' : zlBlock (11 + (codes (a ++ gap)).length)
      (10 + (codes (a ++ gap).dropLast).length) len
      (codes (a ++ gap) ++ [ZIP_END]) = zlFrame len [] (a ++ gap) := by
    rw [zlFrame, length_nil, Nat.zero_add, Nat.zero_add, nil_append]
  rw [hframe', ziplistIncrLength_zlFrame hn, bind_some]
  exact ziplistDelete_cascade h (fun e he => hok e (by simp [he]))
    (by rw [zlSize, zlDelete, codes_append, length_append]; exact hsize)

end Delete

/-! ### Reading the list -/

/-- The place behind the entries `a`. -/
def zlPlace (a : List ZEntry) : ℕ := 10 + (codes a).length

section Walk

variable {es : List ZEntry}

theorem ziplistIndexForth_eq (pre : Bytes) (hes : ∀ e ∈ es, e.Ok) (hsize : (codes es).length < 2 ^ 32)
    (index : ℕ) : ziplistIndexForth (pre ++ (codes es ++ [ZIP_END])) index pre.length =
      some (pre.length + (codes (es.take index)).length, if index < es.length then -1
        else (index : ℤ) - es.length) := by
  induction index generalizing pre es with
  | zero =>
    obtain ⟨c, hc, hend⟩ := byte_before pre hes
    rw [ziplistIndexForth, hc, map_some]
    simp only [hend]
    cases es with
    | nil => rfl
    | cons e es => rfl
  | succ index ih =>
    obtain ⟨c, hc, hend⟩ := byte_before pre hes
    rw [ziplistIndexForth, hc, bind_some]
    cases es with
    | nil =>
      rw [if_pos (hend.mpr rfl)]
      simp [codes]
    | cons e es =>
      rw [codes_cons_length] at hsize
      have hraw := (hes e (by simp)).zipRawEntryLength_eq (by omega) pre (codes es ++ [ZIP_END])
      have hnext := @ih es (pre ++ e.code) (fun e' he' => hes e' (by simp [he'])) (by omega)
      rw [length_append, code_length, append_assoc] at hnext
      rw [if_neg (mt hend.mp (cons_ne_nil _ _)), codes_cons, append_assoc, hraw, bind_some, hnext]
      simp only [take_succ_cons, codes_cons_length, length_cons, some.injEq, Prod.mk.injEq]
      refine ⟨by omega, ?_⟩
      split_ifs <;> omega

theorem ziplistCount_eq (pre : Bytes) (hes : ∀ e ∈ es, e.Ok) (hsize : (codes es).length < 2 ^ 32) {fuel count : ℕ}
    (hfuel : es.length < fuel) (hcount : count + es.length < 2 ^ 32) :
    ziplistCount (pre ++ (codes es ++ [ZIP_END])) fuel pre.length count = some (count + es.length) := by
  induction es generalizing pre fuel count with
  | nil =>
    obtain ⟨fuel, rfl⟩ := Nat.exists_eq_add_of_lt hfuel
    obtain ⟨c, hc, hend⟩ := byte_before pre hes
    rw [ziplistCount, hc, bind_some, if_pos (hend.mpr rfl)]
    rfl
  | cons e es ih =>
    obtain ⟨fuel, rfl⟩ := Nat.exists_eq_add_of_lt (Nat.zero_lt_of_lt hfuel)
    obtain ⟨c, hc, hend⟩ := byte_before pre hes
    rw [length_cons] at hfuel hcount
    rw [codes_cons_length] at hsize
    have hraw := (hes e (by simp)).zipRawEntryLength_eq (by omega) pre (codes es ++ [ZIP_END])
    have hnext := @ih (pre ++ e.code) (fun e' he' => hes e' (by simp [he'])) (by omega) fuel (count + 1) (by omega)
      (by omega)
    rw [length_append, code_length, append_assoc] at hnext
    rw [Nat.zero_add, ziplistCount, hc, bind_some, if_neg (mt hend.mp (cons_ne_nil _ _)), codes_cons,
      append_assoc, hraw, bind_some, Nat.mod_eq_of_lt (by omega), hnext, length_cons]
    congr 1
    omega

end Walk

/-- The block `zl` holds the strings `xs`, in the entries `es`: the header tells the size, the
place of the last entry and their number, if it is known, and each entry tells the length of the
one before it. -/
structure ZlHolds (zl : Bytes) (len : ℕ) (es : List ZEntry) (xs : List Bytes) : Prop where
  block : zl = zlFrame len [] es
  linked : Linked 0 es
  bodies : es.map ZEntry.body = xs.map zipBody
  counts : len = 65535 ∨ len = xs.length ∧ xs.length < 65535
  size : zlSize es < 2 ^ 32

namespace ZlHolds

variable {zl : Bytes} {len i : ℕ} {es a b : List ZEntry} {e : ZEntry} {xs : List Bytes}

theorem body_length_le (he : e ∈ es) : e.body.length ≤ (codes es).length := by
  obtain ⟨a, b, rfl⟩ := append_of_mem he
  rw [codes_append, length_append, codes_cons_length, ZEntry.raw]
  omega

theorem place_snoc (a : List ZEntry) (e : ZEntry) : zlPlace (a ++ [e]) = zlPlace a + e.raw := by
  rw [zlPlace, codes_append, codes_singleton, length_append, code_length, zlPlace, Nat.add_assoc]

theorem raw_pos (e : ZEntry) : 0 < e.raw := by
  have hone : 1 ≤ zipPrevSize e.large := by cases e.large <;> decide
  rw [ZEntry.raw]
  omega

section

variable (h : ZlHolds zl len es xs)
include h

theorem length_eq : es.length = xs.length := by
  have hlen := congrArg List.length h.bodies
  rwa [length_map, length_map] at hlen

theorem len_le : len ≤ 65535 := by
  rcases h.counts with heq | ⟨heq, hlt⟩
  · exact heq.le
  · omega

theorem codes_lt : (codes es).length < 2 ^ 32 := by
  have hsize := h.size
  unfold zlSize at hsize
  omega

theorem reads : ∀ e ∈ es, ∃ v, ZipReads e.body v := by
  intro e he
  have hmem : e.body ∈ xs.map zipBody := h.bodies ▸ List.mem_map_of_mem he
  obtain ⟨s, -, hs⟩ := List.mem_map.mp hmem
  have hle := body_length_le he
  have hcodes := h.codes_lt
  rw [← hs] at hle ⊢
  exact ⟨_, (zipEntryBody_spec (length_lt_of_zipBody (by norm_num) (by omega))).2⟩

theorem ok : ∀ e ∈ es, e.Ok := h.linked.ok (by norm_num) h.codes_lt h.reads

theorem ziplistTailOffset_eq : ziplistTailOffset zl = some (zlPlace es.dropLast) := by
  rw [h.block, zlFrame_tailOffset (by have := h.size; unfold zlSize at this; simpa using this), length_nil,
    Nat.zero_add, zlPlace]

end

theorem byte_at (h : ZlHolds zl len (a ++ b) xs) : ∃ c, zl[zlPlace a]? = some c ∧ (c = ZIP_END ↔ b = []) := by
  rw [h.block]
  exact zlFrame_byte_at fun e he => h.ok e (by simp [he])

section

variable (h : ZlHolds zl len (a ++ e :: b) xs)
include h

theorem raw_lt : e.raw < 2 ^ 32 := by
  have hcodes := h.codes_lt
  rw [codes_append, length_append, codes_cons_length] at hcodes
  omega

theorem ok_mid : e.Ok := h.ok e (by simp)

theorem block_mid : zl = zlFrame len (codes a) (e :: b) := by
  rw [h.block, zlFrame_append (cons_ne_nil _ _), nil_append]

theorem ziplistNext_eq :
    ziplistNext zl (zlPlace a) = some (if b = [] then none else some (zlPlace (a ++ [e]))) := by
  obtain ⟨c, hc, hend⟩ := h.byte_at
  have hraw : zipRawEntryLength zl (zlPlace a) = some e.raw := by
    rw [h.block_mid]
    exact zlFrame_rawEntryLength h.ok_mid h.raw_lt
  have h' : ZlHolds zl len ((a ++ [e]) ++ b) xs := by rwa [append_assoc]
  obtain ⟨c', hc', hend'⟩ := h'.byte_at
  rw [place_snoc] at hc'
  rw [ziplistNext, hc, bind_some, if_neg (mt hend.mp (cons_ne_nil _ _)), hraw, bind_some, hc',
    map_some, place_snoc]
  simp [hend']

theorem zipDecodePrevlen_eq :
    zipDecodePrevlen zl (zlPlace a) = some (zipPrevSize e.large, lastRaw 0 a) := by
  have hprev : e.prevlen = lastRaw 0 a := (linked_append.mp h.linked).2.1
  rw [h.block_mid, ← hprev]
  exact zlFrame_decodePrevlen h.ok_mid

theorem ziplistPrev_eq :
    ziplistPrev zl (zlPlace (a ++ [e])) = some (some (zlPlace a)) := by
  have h' : ZlHolds zl len ((a ++ [e]) ++ b) xs := by rwa [append_assoc]
  obtain ⟨c, hc, hend⟩ := h'.byte_at
  have hpos := raw_pos e
  rw [ziplistPrev, hc, bind_some]
  cases b with
  | nil =>
    obtain ⟨c', hc', hend'⟩ := h.byte_at
    rw [if_pos (hend.mpr rfl), h.ziplistTailOffset_eq, bind_some, dropLast_concat, hc', map_some,
      if_neg (mt hend'.mp (cons_ne_nil _ _))]
  | cons e' b =>
    have hhead : ¬ zlPlace (a ++ [e]) = ZIPLIST_HEADER_SIZE := by
      rw [place_snoc, zlPlace, ZIPLIST_HEADER_SIZE]
      omega
    rw [if_neg (mt hend.mp (cons_ne_nil _ _)), if_neg hhead, h'.zipDecodePrevlen_eq, lastRaw_concat, place_snoc]
    simp only [bind_some]
    rw [if_pos (by omega), Nat.add_sub_cancel]

end

variable (h : ZlHolds zl len es xs)
include h

theorem ziplistPrev_first : ziplistPrev zl (zlPlace []) = some none := by
  obtain ⟨c, hc, hend⟩ := ZlHolds.byte_at (a := []) h
  rw [ziplistPrev, hc, bind_some]
  cases es with
  | nil =>
    rw [if_pos (hend.mpr rfl), h.ziplistTailOffset_eq, bind_some, dropLast_nil, hc, map_some,
      if_pos (hend.mpr rfl)]
  | cons e es =>
    rw [if_neg (mt hend.mp (cons_ne_nil _ _))]
    exact if_pos rfl

theorem ziplistGet_eq (hi : i < xs.length) : ziplistGet zl (zlPlace (es.take i)) = some (some (zipValue xs[i])) := by
  have hlen := h.length_eq
  obtain ⟨a, e, b, hes, ha, -, -, he⟩ := @split_at _ es i (by omega)
  have hbody : e.body = zipBody xs[i] := by
    have hmap := congrArg (fun l => l[i]?) h.bodies
    simp only [List.getElem?_map, he, map_some, List.getElem?_eq_getElem hi, some.injEq] at hmap
    exact hmap
  rw [ha]
  rw [hes] at h
  obtain ⟨pre, hpre, heq⟩ := zlFrame_eq_cons len (codes a) e b
  have hle := body_length_le (show e ∈ a ++ e :: b by simp)
  have hcodes := h.codes_lt
  rw [hbody] at hle
  have hlt : xs[i].length < 2 ^ 32 := length_lt_of_zipBody (by norm_num) (by omega)
  have hreads := (zipEntryBody_spec hlt).2
  rw [← hbody] at hreads
  rw [h.block_mid, heq, zlPlace, ← hpre]
  exact h.ok_mid.ziplistGet_eq hreads _ _

/-- Backwards from an entry: the first one is met before the index is used up, or not. -/
theorem ziplistIndexBack_eq (hi : i < es.length) (k : ℕ) :
    ziplistIndexBack zl k (zlPlace (es.take i)) (lastRaw 0 (es.take i)) =
      some (zlPlace (es.take (i - k)), if k < i then -1 else (k : ℤ) - i) := by
  induction k generalizing i with
  | zero =>
    cases i with
    | zero => rfl
    | succ i =>
      obtain ⟨a, e, b, hes, -, hae, -, -⟩ := @split_at _ es i (by omega)
      obtain ⟨r, hr⟩ := Nat.exists_eq_add_of_lt (raw_pos e)
      rw [hae, lastRaw_concat, hr, ziplistIndexBack, Nat.sub_zero, hae, if_pos (Nat.succ_pos i)]
  | succ k ih =>
    cases i with
    | zero =>
      rw [Nat.zero_sub, if_neg (Nat.not_lt_zero _), take_zero]
      rfl
    | succ i =>
      obtain ⟨a, e, b, hes, ha, hae, -, -⟩ := @split_at _ es i (by omega)
      have hmid : ZlHolds zl len (a ++ e :: b) xs := by rwa [← hes]
      obtain ⟨r, hr⟩ := Nat.exists_eq_add_of_lt (raw_pos e)
      have hnext := @ih i (by omega)
      rw [ha] at hnext
      rw [hae, lastRaw_concat, hr, ziplistIndexBack, place_snoc, hr, if_pos (by omega), Nat.zero_add,
        Nat.add_sub_cancel, hmid.zipDecodePrevlen_eq]
      simp only [bind_some, hnext, Nat.add_sub_add_right, some.injEq, Prod.mk.injEq, true_and]
      split_ifs <;> omega

/-- `ziplistIndex` finds the element that the index names, from either end. -/
theorem ziplistIndex_eq (index : ℤ) :
    ziplistIndex zl index = some ((position es index).map fun i => zlPlace (es.take i)) := by
  have hbyte : ∀ i, ∃ c, zl[zlPlace (es.take i)]? = some c ∧ (c = ZIP_END ↔ es.length ≤ i) := by
    intro i
    have h' : ZlHolds zl len (es.take i ++ es.drop i) xs := by rwa [take_append_drop]
    obtain ⟨c, hc, hend⟩ := h'.byte_at
    exact ⟨c, hc, by rw [hend, drop_eq_nil_iff]⟩
  unfold position
  rw [ziplistIndex]
  by_cases hneg : index < 0
  · simp only [if_pos hneg]
    rw [h.ziplistTailOffset_eq, bind_some, dropLast_eq_take]
    obtain ⟨c, hc, hend⟩ := hbyte (es.length - 1)
    rw [hc, bind_some]
    by_cases hpos : 0 < es.length
    · -- from the last entry on
      obtain ⟨a, e, b, hes, ha, -, -, -⟩ := @split_at _ es (es.length - 1) (by omega)
      have hmid : ZlHolds zl len (a ++ e :: b) xs := by rwa [← hes]
      have hprev : zipDecodePrevlen zl (zlPlace (es.take (es.length - 1))) =
          some (zipPrevSize e.large, lastRaw 0 (es.take (es.length - 1))) := by
        rw [ha]
        exact hmid.zipDecodePrevlen_eq
      obtain ⟨c', hc', hend'⟩ := hbyte (es.length - 1 - (-index - 1).toNat)
      rw [if_pos (by rw [ne_eq, hend]; omega), hprev]
      simp only [bind_some, h.ziplistIndexBack_eq (show es.length - 1 < es.length by omega), hc', map_some,
        hend']
      by_cases hin : 0 ≤ (es.length : ℤ) + index ∧ (es.length : ℤ) + index < es.length
      · rw [if_pos hin, map_some, show ((es.length : ℤ) + index).toNat = es.length - 1 - (-index - 1).toNat by omega,
          if_neg]
        rw [not_or]
        refine ⟨by omega, ?_⟩
        split_ifs <;> omega
      · rw [if_neg hin, map_none, if_pos]
        right
        rw [if_neg (by omega)]
        omega
    · rw [if_neg (not_not_intro (hend.mpr (by omega)))]
      simp only [bind_some, hc, map_some]
      rw [if_pos (.inl (hend.mpr (by omega))), if_neg (by omega), map_none]
  · simp only [if_neg hneg]
    obtain ⟨pre, hpre, heq⟩ := zlFrame_eq len [] es
    have hforth := ziplistIndexForth_eq pre h.ok h.codes_lt index.toNat
    rw [← heq, ← h.block, hpre] at hforth
    obtain ⟨c, hc, hend⟩ := hbyte index.toNat
    have hplace : 10 + ([] : Bytes).length + (codes (es.take index.toNat)).length = zlPlace (es.take index.toNat) := rfl
    rw [hplace] at hforth
    rw [show ZIPLIST_HEADER_SIZE = 10 + ([] : Bytes).length from rfl, hforth]
    simp only [bind_some, hc, map_some, hend]
    by_cases hin : 0 ≤ index ∧ index < es.length
    · rw [if_pos hin, map_some, if_neg]
      rw [not_or, if_pos (by omega)]
      exact ⟨by omega, by omega⟩
    · rw [if_neg hin, map_none, if_pos (.inl (by omega))]

/-- The number of elements; the header may know it again afterwards. -/
theorem ziplistLen_eq : ∃ zl' len', ziplistLen zl = some (zl', xs.length) ∧ ZlHolds zl' len' es xs := by
  have hle := length_le_codes es
  have hcodes := h.codes_lt
  have hlen := h.length_eq
  have hhead : ziplistLength zl = some len := by
    rw [h.block]
    exact ziplistLength_zlBlock (by have := h.len_le; omega)
  rw [ziplistLen, hhead, bind_some]
  rcases h.counts with hunknown | ⟨hknown, hlt⟩
  · obtain ⟨pre, hpre, heq⟩ := zlFrame_eq len [] es
    have hcount := @ziplistCount_eq es pre h.ok h.codes_lt zl.length 0
      (by rw [h.block, zlFrame, zlBlock_length]; simp only [length_append]; omega) (by omega)
    rw [← heq, ← h.block, hpre, Nat.zero_add, hlen] at hcount
    rw [if_neg (by omega), show ZIPLIST_HEADER_SIZE = 10 + ([] : Bytes).length from rfl, hcount, bind_some]
    split_ifs with hfew
    · rw [h.block, zlFrame, ziplistSetLength_zlBlock, map_some]
      exact ⟨_, xs.length, rfl, rfl, h.linked, h.bodies, .inr ⟨rfl, hfew⟩, h.size⟩
    · exact ⟨zl, len, rfl, h⟩
  · rw [if_pos (by omega), hknown]
    exact ⟨zl, len, rfl, h⟩

end ZlHolds

/-! ### Runs -/

def ZlOp.edit (op : ZlOp) (es : List ZEntry) : List ZEntry :=
  match op with
  | .push s head => if head then zlInsert [] es s else zlInsert es [] s
  | .insert index s => (position es index).elim es fun i => zlInsert (es.take i) (es.drop i) s
  | .delete index => (position es index).elim es fun i => zlDelete (es.take i) (es.drop (i + 1))
  | .deleteRange index num =>
    (position es index).elim es fun i => if num = 0 then es else zlDelete (es.take i) (es.drop (i + num))
  | .len => es

namespace ZlHolds

variable {zl : Bytes} {len i : ℕ} {es : List ZEntry} {xs : List Bytes} {s : Bytes}

variable (h : ZlHolds zl len es xs)
include h

theorem bodies_take (i : ℕ) : (es.take i).map ZEntry.body = (xs.take i).map zipBody := by
  rw [map_take, map_take, h.bodies]

theorem bodies_drop (i : ℕ) : (es.drop i).map ZEntry.body = (xs.drop i).map zipBody := by
  rw [map_drop, map_drop, h.bodies]

theorem ziplistBytes_eq : ziplistBytes zl = some (zlSize es) := by
  have hsize := h.size
  rw [h.block, zlFrame_bytes (by simpa [zlSize] using hsize), zlSize, length_nil, Nat.zero_add]

theorem insert_at (hi : i ≤ xs.length)
    (hsize : zlSize (zlInsert (es.take i) (es.drop i) s) < 2 ^ 32) :
    ∃ zl' len', _ziplistInsert zl (zlPlace (es.take i)) s = some zl' ∧
      ZlHolds zl' len' (zlInsert (es.take i) (es.drop i) s) (xs.take i ++ s :: xs.drop i) := by
  have hlinked : Linked 0 (es.take i ++ es.drop i) := by rw [take_append_drop]; exact h.linked
  have hbody : (zipBody s).length < 2 ^ 32 := by
    rw [zlSize, zlInsert, codes_append, length_append, codes_cons_length, ← newEntry_raw] at hsize
    omega
  have hinsert := @ziplistInsert_eq len (es.take i) (es.drop i) s hlinked
    (by rw [take_append_drop]; exact h.ok) (zipEntryBody_spec (length_lt_of_zipBody (by norm_num) hbody)).1
    h.len_le hsize
  rw [take_append_drop, ← h.block] at hinsert
  refine ⟨_, zlSucc len, hinsert, rfl, hlinked.zlInsert s, ?_, ?_, hsize⟩
  · rw [zlInsert, map_append, map_cons, linkNext_bodies, h.bodies_take, h.bodies_drop, map_append,
      map_cons]
    rfl
  · have hcounts := h.counts
    have hlen : (xs.take i ++ s :: xs.drop i).length = xs.length + 1 := by
      rw [length_append, length_cons, length_take, length_drop]
      omega
    rw [hlen, zlSucc]
    split_ifs <;> omega

theorem delete_at (hi : i < xs.length) {num : ℕ} (hnum : 0 < num)
    (hsize : zlSize (zlDelete (es.take i) (es.drop (i + num))) < 2 ^ 32) :
    ∃ zl' len', _ziplistDelete zl (zlPlace (es.take i)) num = some zl' ∧
      ZlHolds zl' len' (zlDelete (es.take i) (es.drop (i + num))) (xs.take i ++ xs.drop (i + num)) := by
  have hlen := h.length_eq
  have hsplit : es = es.take i ++ ((es.drop i).take num ++ es.drop (i + num)) := by
    rw [← drop_drop, take_append_drop, take_append_drop]
  have hlinked := h.linked
  have hok := h.ok
  have hold := h.size
  rw [hsplit] at hlinked hok hold
  have hd : (es.drop i).take num ≠ [] := by
    rw [ne_eq, take_eq_nil_iff, drop_eq_nil_iff]
    omega
  have htake : ((es.drop i).take num ++ es.drop (i + num)).take num = (es.drop i).take num := by
    rw [← drop_drop, take_append_drop]
  have hdelete := @ziplistDelete_eq len _ _ _ num hlinked hok hd htake h.len_le hold hsize
  rw [← hsplit, ← h.block] at hdelete
  refine ⟨_, _, hdelete, rfl, hlinked.zlDelete, ?_, ?_, hsize⟩
  · rw [zlDelete, map_append, linkNext_bodies, h.bodies_take, h.bodies_drop, map_append]
  · have hcounts := h.counts
    rw [length_append, length_take, length_drop, length_take, length_drop, zlMinus]
    split_ifs <;> omega

theorem delete_none (hi : i < es.length) : _ziplistDelete zl (zlPlace (es.take i)) 0 = some zl := by
  obtain ⟨a, e, b, hes, ha, -, -, -⟩ := split_at hi
  have hmid : ZlHolds zl len (a ++ e :: b) xs := by rwa [← hes]
  obtain ⟨r, hr, -, -, -⟩ := @zlFrame_zipEntry len (codes a) e b hmid.ok_mid hmid.raw_lt
  rw [← hmid.block_mid] at hr
  have hentry : zipEntry zl (zlPlace a) = some r := hr
  rw [ha, _ziplistDelete, hentry]
  simp [bind_some, ziplistSkip, gt_iff_lt, lt_self_iff_false]

theorem exec_at {f : ℕ → Option Bytes} {g : ℕ → List ZEntry} {k : ℕ → List Bytes} (index : ℤ)
    (hf : ∀ i < xs.length, zlSize (g i) < 2 ^ 32 →
      ∃ zl' len', f (zlPlace (es.take i)) = some zl' ∧ ZlHolds zl' len' (g i) (k i))
    (hsize : zlSize ((position es index).elim es g) < 2 ^ 32) :
    ∃ zl' len', ((ziplistIndex zl index).bind fun p => p.elim (some zl) f) = some zl' ∧
      ZlHolds zl' len' ((position es index).elim es g) ((position xs index).elim xs k) := by
  rw [h.ziplistIndex_eq, bind_some]
  rw [position_congr h.length_eq] at hsize ⊢
  cases hi : position xs index with
  | none => exact ⟨zl, len, rfl, h⟩
  | some i =>
    rw [hi] at hsize
    exact hf i (lt_of_position hi) hsize

theorem exec (op : ZlOp) (hsize : zlSize (op.edit es) < 2 ^ 32) :
    ∃ zl' len', op.exec zl = some zl' ∧ ZlHolds zl' len' (op.edit es) (op.apply xs) := by
  have hlen := h.length_eq
  cases op with
  | push s head =>
    cases head with
    | true => exact h.insert_at (i := 0) (Nat.zero_le _) hsize
    | false =>
      have hedit : (ZlOp.push s false).edit es = zlInsert (es.take es.length) (es.drop es.length) s := by
        rw [take_length, drop_length]
        rfl
      rw [hedit] at hsize ⊢
      obtain ⟨zl', len', hrun, hholds⟩ := h.insert_at hlen.le hsize
      refine ⟨zl', len', ?_, ?_⟩
      · rw [take_length] at hrun
        change (ziplistBytes zl).bind _ = _
        have hend : zlSize es - 1 = zlPlace es := by
          rw [zlSize, zlPlace]
          omega
        rw [h.ziplistBytes_eq, bind_some, if_neg (by rw [zlSize]; omega), hend, hrun]
      · rw [hlen, take_length, drop_length] at hholds
        rw [hlen]
        simpa [ZlOp.apply] using hholds
  | insert index s =>
    refine h.exec_at index (fun i hi hsize => ?_) hsize
    have hidx := insertIdx_length_append (xs.take i) (xs.drop i) s
    rw [take_append_drop, length_take, Nat.min_eq_left hi.le] at hidx
    rw [hidx]
    exact h.insert_at hi.le hsize
  | delete index =>
    refine h.exec_at index (fun i hi hsize => ?_) hsize
    rw [eraseIdx_eq_take_drop_succ]
    exact h.delete_at hi Nat.one_pos hsize
  | deleteRange index num =>
    refine h.exec_at index (fun i hi hsize => ?_) hsize
    by_cases hnum : num = 0
    · rw [if_pos hnum, hnum, Nat.add_zero, take_append_drop]
      exact ⟨zl, len, h.delete_none (by omega), h⟩
    · rw [if_neg hnum] at hsize ⊢
      exact h.delete_at hi (Nat.pos_of_ne_zero hnum) hsize
  | len =>
    obtain ⟨zl', len', hrun, hholds⟩ := h.ziplistLen_eq
    exact ⟨zl', len', by rw [ZlOp.exec, hrun]; rfl, hholds⟩

end ZlHolds

def zlElements (ops : List ZlOp) (xs : List Bytes) : List Bytes := ops.foldl (fun xs op => op.apply xs) xs

def zlEntries (ops : List ZlOp) (es : List ZEntry) : List ZEntry := ops.foldl (fun es op => op.edit es) es

theorem ZlHolds.run {zl : Bytes} {len : ℕ} {xs : List Bytes} (h : ZlHolds zl len es xs)
    {ops : List ZlOp} (hsize : ∀ pre, pre <+: ops → zlSize (zlEntries pre es) < 2 ^ 32) :
    ∃ zl' len', ziplistRun ops zl = some zl' ∧ ZlHolds zl' len' (zlEntries ops es) (zlElements ops xs) := by
  induction ops generalizing zl len es xs with
  | nil => exact ⟨zl, len, rfl, h⟩
  | cons op ops ih =>
    obtain ⟨zl₁, len₁, hexec, h₁⟩ := h.exec op (hsize [op] (by simp))
    obtain ⟨zl₂, len₂, hrun, h₂⟩ := ih h₁ fun pre hpre => hsize (op :: pre) (by simpa using hpre)
    exact ⟨zl₂, len₂, by rw [ziplistRun, hexec, bind_some, hrun], h₂⟩

theorem ziplistNew_holds : ZlHolds ziplistNew 0 [] [] := ⟨rfl, trivial, rfl, .inr ⟨rfl, by decide⟩, by decide⟩

/-- The entry at a position, `NULL` behind the last one. -/
def zlPtr (es : List ZEntry) (i : ℕ) : Option ℕ := if i < es.length then some (zlPlace (es.take i)) else none

theorem zlPtr_eq_some {i p : ℕ} (h : zlPtr es i = some p) :
    i < es.length ∧ zlPlace (es.take i) = p := by
  unfold zlPtr at h
  split_ifs at h with hi
  exact ⟨hi, some.inj h⟩

namespace ZlHolds

variable {zl : Bytes} {len i : ℕ} {xs : List Bytes} (h : ZlHolds zl len es xs)
include h

theorem ziplistNext_ptr (hi : i < es.length) :
    ziplistNext zl (zlPlace (es.take i)) = some (zlPtr es (i + 1)) := by
  obtain ⟨a, e, b, hes, ha, hae, hb, -⟩ := split_at hi
  rw [hes] at h
  rw [ha, h.ziplistNext_eq, zlPtr, hae, ← hb]
  by_cases hlast : i + 1 < es.length
  · rw [if_pos hlast, if_neg (by rw [drop_eq_nil_iff]; omega)]
  · rw [if_neg hlast, if_pos (by rw [drop_eq_nil_iff]; omega)]

theorem ziplistPrev_succ (hi : i < es.length) :
    ziplistPrev zl (zlPlace (es.take (i + 1))) = some (some (zlPlace (es.take i))) := by
  obtain ⟨a, e, b, hes, ha, hae, -, -⟩ := split_at hi
  rw [hes] at h
  rw [ha, hae, h.ziplistPrev_eq]

theorem ziplistPrev_end : ziplistPrev zl (zlPlace es) = some (zlPtr es (es.length - 1)) := by
  by_cases hpos : 0 < es.length
  · have hprev := h.ziplistPrev_succ (i := es.length - 1) (by omega)
    rw [Nat.sub_add_cancel hpos, take_length] at hprev
    rw [hprev, zlPtr, if_pos (by omega)]
  · obtain rfl := length_eq_zero_iff.mp (by omega : es.length = 0)
    exact h.ziplistPrev_first

end ZlHolds

/-- A ziplist is a list of byte strings. After every sequence of calls whose blocks stay below
2^32 bytes, the block is the one of the entries, and they hold the list of the model; traversal in
both directions, indexes from either end, the length and the elements agree with the list. -/
theorem ziplist_refines {ops : List ZlOp} (hsize : ∀ pre, pre <+: ops → zlSize (zlEntries pre []) < 2 ^ 32) :
    let es := zlEntries ops []
    let xs := zlElements ops []
    ∃ zl len, ziplistRun ops ziplistNew = some zl ∧ ZlHolds zl len es xs ∧
      (∃ zl' len', ziplistLen zl = some (zl', xs.length) ∧ ZlHolds zl' len' es xs) ∧
      (∀ index, ziplistIndex zl index = some ((position xs index).bind (zlPtr es))) ∧
      ziplistPrev zl (zlPlace es) = some (zlPtr es (xs.length - 1)) ∧ ∀ (i : ℕ) (p : ℕ), zlPtr es i = some p →
        ziplistNext zl p = some (zlPtr es (i + 1)) ∧
          (∀ q, ziplistNext zl p = some (some q) → ziplistPrev zl q = some (some p)) ∧
          (i = 0 → ziplistPrev zl p = some none) ∧ ∃ v, ziplistGet zl p = some (some v) ∧
            xs[i]? = some v.print := by
  intro es xs
  obtain ⟨zl, len, hrun, h⟩ := ziplistNew_holds.run hsize
  refine ⟨zl, len, hrun, h, h.ziplistLen_eq, ?_, ?_, ?_⟩
  · intro index
    rw [h.ziplistIndex_eq, position_congr h.length_eq]
    cases hi : position xs index with
    | none => rfl
    | some i =>
      have hlt : i < (zlEntries ops []).length := h.length_eq ▸ lt_of_position hi
      rw [map_some, bind_some, zlPtr, if_pos hlt]
  · have hlen : es.length = xs.length := h.length_eq
    rw [← hlen]
    exact h.ziplistPrev_end
  · intro i p hp
    obtain ⟨hi, rfl⟩ := zlPtr_eq_some hp
    have hlt : i < xs.length := h.length_eq ▸ hi
    refine ⟨h.ziplistNext_ptr hi, ?_, ?_, zipValue xs[i], h.ziplistGet_eq hlt, ?_⟩
    · intro q hq
      rw [h.ziplistNext_ptr hi] at hq
      obtain ⟨-, rfl⟩ := zlPtr_eq_some (some.inj hq)
      exact h.ziplistPrev_succ hi
    · intro h0
      rw [h0]
      exact h.ziplistPrev_first
    · rw [zipValue_print, List.getElem?_eq_getElem hlt]

/-- A long string in front of a short one, a number between them, which makes the `prevlen` of
the short one short again; then the long one and the last one go, and the list is counted. -/
def zlCalls : List ZlOp :=
  [.push [97, 98] false, .push (replicate 260 120) true, .insert 1 [55], .delete 0, .push [45, 56] true,
    .deleteRange (-1) 3, .len]

theorem ziplist_refines_zlCalls : ∃ zl, ziplistRun zlCalls ziplistNew = some zl ∧
      ziplistIndex zl (-1) = some (zlPtr (zlEntries zlCalls []) 1) ∧
      ∀ p, zlPtr (zlEntries zlCalls []) 1 = some p → ∃ v, ziplistGet zl p = some (some v) ∧
        some [55] = some v.print := by
  have hinits : ∀ pre ∈ zlCalls.inits, zlSize (zlEntries pre []) < 2 ^ 32 := by decide +kernel
  have hlast : position (zlElements zlCalls []) (-1) = some 1 := by decide +kernel
  have helem : (zlElements zlCalls [])[1]? = some [55] := by decide +kernel
  obtain ⟨zl, -, hrun, -, -, hindex, -, hget⟩ :=
    ziplist_refines fun pre hpre => hinits pre ((mem_inits pre zlCalls).mpr hpre)
  refine ⟨zl, hrun, by rw [hindex, hlast, bind_some], ?_⟩
  intro p hp
  rw [← helem]
  exact (hget 1 p hp).2.2.2

end RedisIR
