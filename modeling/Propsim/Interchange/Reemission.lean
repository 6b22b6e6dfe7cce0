import Propsim.Interchange.EdnRoundTrip

/-!
# Writing an ingested history again

The EDN reader yields plain keywords only, while a JSON string or a string-valued `:f` can carry any
name. So a history is read back from its EDN text exactly when its names are plain.
-/

set_option autoImplicit false
set_option relaxedAutoImplicit false

namespace Propsim.Interchange

open Foundation

variable {floats : FloatText}

namespace Edn

theorem atomValue_keywordsPlain {tok : List Char} {v : Value} (h : atomValue floats tok = .ok v) :
    v.KeywordsPlain := by
  have hnone {w : Value} (hw : ∀ k, .keyword k ∉ w.parts) : w.KeywordsPlain :=
    fun k hk ↦ absurd hk (hw k)
  unfold atomValue at h
  split_ifs at h
  · exact Except.ok.inj h ▸ hnone (by simp [Value.parts])
  · exact Except.ok.inj h ▸ hnone (by simp [Value.parts])
  · exact Except.ok.inj h ▸ hnone (by simp [Value.parts])
  · split at h
    · exact Except.ok.inj h ▸ hnone (by simp [Value.parts])
    · split at h
      · exact Except.ok.inj h ▸ hnone (by simp [Value.parts])
      · cases h

theorem plainName_of_parseKeyword {bytes tail : List UInt8} {k : String}
    (h : parseKeyword bytes = .ok (.keyword k, tail)) : PlainName k := by
  obtain ⟨k', hk, hne, htoken, -⟩ := parseKeyword_eq_ok h
  obtain rfl := Value.keyword.inj hk
  refine ⟨?_, fun b hb ↦ ?_⟩
  · rintro rfl
    exact hne htoken.symm
  · rw [htoken] at hb
    simpa using List.all_eq_true.mp List.all_takeWhile b hb

/-- Every keyword that is read is plain. -/
theorem Reads.keywordsPlain {form : Form} {bytes tail : List UInt8} {v : Value}
    (h : Reads floats form bytes v tail) : v.KeywordsPlain := by
  induction h with
  | map _ _ ih => exact ih
  | vector _ _ ih => exact ih
  | list _ _ ih => exact ih
  | string => intro k hk; simp [Value.parts] at hk
  | keyword _ hk =>
    obtain ⟨k, rfl, -⟩ := parseKeyword_eq_ok hk
    intro k' hk'
    obtain rfl : k' = k := by simpa [Value.parts] using hk'
    exact plainName_of_parseKeyword hk
  | atom _ _ ha =>
    obtain ⟨tok, -, hrest⟩ := except_bind_eq_ok.mp ha
    obtain ⟨value, hvalue, heq⟩ := except_bind_eq_ok.mp hrest
    obtain ⟨rfl, -⟩ := Prod.mk.inj (except_pure_eq_ok.mp heq)
    exact atomValue_keywordsPlain hvalue
  | endItems => intro k hk; simp [Value.parts, Value.partsOfItems] at hk
  | item _ _ _ _ ihv ihitems =>
    intro k hk
    rcases Value.mem_parts_list.mp hk with heq | ⟨w, hw, hpart⟩
    · cases heq
    · rcases List.mem_cons.mp hw with rfl | hw
      · exact ihv k hpart
      · exact ihitems.of_list hw k hpart
  | endPairs => intro k hk; simp [Value.parts, Value.partsOfPairs] at hk
  | pair _ _ _ _ _ ihk ihv ihpairs =>
    intro k' hk'
    rcases Value.mem_parts_map.mp hk' with heq | ⟨p, hp, hkey⟩
    · cases heq
    · rcases List.mem_cons.mp hp with rfl | hp
      · exact hkey.elim (ihk k') (ihv k')
      · exact hkey.elim ((ihpairs.of_map hp).1 k') ((ihpairs.of_map hp).2 k')

/-- A cursor holds at most one value. -/
theorem Reads.unique {bytes tail tail' : List UInt8} {v v' : Value}
    (h : Reads floats .value bytes v tail) (h' : Reads floats .value bytes v' tail') :
    v' = v ∧ tail' = tail :=
  Prod.mk.inj (Except.ok.inj ((reads_iff.mp h').symm.trans (reads_iff.mp h)))

/-- After an opening brace the pairs of a map are read. -/
theorem Reads.of_brace {bytes tail : List UInt8} {v : Value}
    (h : Reads floats .value ('{'.toUInt8 :: bytes) v tail) :
    ∃ pairs, v = .map pairs ∧ Reads floats .pairs bytes (.map pairs) tail := by
  have hskip : skipWs ('{'.toUInt8 :: bytes) = '{'.toUInt8 :: bytes := rfl
  have hparse : parseMap floats bytes [] = .ok (v, tail) :=
    (parseValue_eq hskip).symm.trans (reads_iff.mp h)
  exact (readsUpTo floats bytes.length).pairs bytes [] v tail le_rfl hparse

/-- After a colon a plain keyword is read. -/
theorem Reads.of_colon {bytes rest tail : List UInt8} {v : Value}
    (h : Reads floats .value bytes v tail) (hskip : skipWs bytes = ':'.toUInt8 :: rest) :
    ∃ name, v = .keyword name ∧ PlainName name := by
  have hparse : parseKeyword rest = .ok (v, tail) :=
    (parseValue_eq hskip).symm.trans (reads_iff.mp h)
  obtain ⟨name, rfl, -⟩ := parseKeyword_eq_ok hparse
  exact ⟨name, rfl, plainName_of_parseKeyword hparse⟩

/-- A pair that was written is the first that is read. -/
theorem Reads.written_pair {k v w : Value} (hk : k.KeywordsPlain ∧ k.FloatsFinite)
    (hv : v.KeywordsPlain ∧ v.FloatsFinite) {lead rest tail : List UInt8}
    (hlead : lead = [] ∨ lead = utf8 [',', ' ']) (hrest : Follows rest)
    (h : Reads floats .pairs (lead ++ (utf8 (writeEdn floats k) ++
      ' '.toUInt8 :: (utf8 (writeEdn floats v) ++ rest))) w tail) :
    ∃ pairs, w = .map ((k, v) :: pairs) ∧ Reads floats .pairs rest (.map pairs) tail := by
  have hvalue := @reads_writeEdn floats v hv.1 hv.2 rest hrest
  have hkey := @reads_writeEdn floats k hk.1 hk.2
    (' '.toUInt8 :: (utf8 (writeEdn floats v) ++ rest)) (fun b hb ↦ by
      rw [← Option.some.inj hb]; decide)
  obtain ⟨b, after, hcursor, hskip, -, -, hclose⟩ := exists_cursor_eq_cons floats k
    (' '.toUInt8 :: (utf8 (writeEdn floats v) ++ rest))
  rw [hcursor] at hkey h
  have hlead : skipWs (lead ++ b :: after) = b :: after := by
    rcases hlead with rfl | rfl
    · exact hskip
    · exact hskip
  cases h with
  | endPairs h =>
    obtain ⟨rfl, -⟩ := List.cons.inj (hlead.symm.trans h)
    exact absurd rfl hclose
  | pair h hb hk' hv' hpairs =>
    obtain ⟨rfl, rfl⟩ := List.cons.inj (hlead.symm.trans h)
    obtain ⟨rfl, rfl⟩ := hkey.unique hk'
    have hblank : Reads floats .value (' '.toUInt8 :: (utf8 (writeEdn floats v) ++ rest)) v rest :=
      hvalue.of_skipWs_eq rfl
    obtain ⟨rfl, rfl⟩ := hblank.unique hv'
    exact ⟨_, rfl, hpairs⟩

/-- Pairs that were written are the first that are read. -/
theorem Reads.written_pairs {pairs : List (Value × Value)} {w : Value}
    (hpairs : ∀ p ∈ pairs, (p.1.KeywordsPlain ∧ p.1.FloatsFinite) ∧
      p.2.KeywordsPlain ∧ p.2.FloatsFinite) {first : Bool} {rest tail : List UInt8}
    (hrest : Follows rest)
    (h : Reads floats .pairs (utf8 (writeEdnPairs floats first pairs) ++ rest) w tail) :
    ∃ more, w = .map (pairs ++ more) ∧ Reads floats .pairs rest (.map more) tail := by
  induction pairs generalizing first w with
  | nil =>
    cases h with
    | endPairs h => exact ⟨_, rfl, .endPairs h⟩
    | pair h hb hk hv hmore => exact ⟨_, rfl, .pair h hb hk hv hmore⟩
  | cons p pairs ih =>
    obtain ⟨hfirst, hlater⟩ := List.forall_mem_cons.mp hpairs
    obtain ⟨k, v⟩ := p
    have hfollows : Follows (utf8 (writeEdnPairs floats false pairs) ++ rest) := by
      cases pairs with
      | nil => exact hrest
      | cons q pairs => exact fun b hb ↦ by rw [← Option.some.inj hb]; decide
    have hlead : utf8 (if first then [] else [',', ' ']) = [] ∨
        utf8 (if first then [] else [',', ' ']) = utf8 [',', ' '] := by
      cases first
      · exact .inr rfl
      · exact .inl rfl
    rw [writeEdnPairs, writeEdnPair, utf8_append, utf8_append, utf8_append,
      utf8_cons_ascii (by decide), List.append_assoc, List.append_assoc, List.append_assoc,
      List.cons_append] at h
    obtain ⟨others, rfl, hothers⟩ := h.written_pair hfirst.1 hfirst.2 hlead hfollows
    obtain ⟨more, heq, hmore⟩ := ih hlater hothers
    obtain rfl := Value.map.inj heq
    exact ⟨more, rfl, hmore⟩

end Edn

/-! ### The function of a line -/

/-- The pairs that are written before the function of an entry. -/
def headPairs (e : OpEntry) : List (Value × Value) :=
  [(.keyword "index", .int e.index.toInt64), (.keyword "time", .int e.time.nanos),
    (.keyword "clock", .keyword (clockKw e.time.clock)),
    (.keyword "type", .keyword e.kind.keyword),
    (.keyword "process", .int e.process.id.toInt64)]

/-- What is written before the name of the function. -/
def headText (floats : FloatText) (e : OpEntry) : List Char :=
  '{' :: (writeEdnPairs floats true (headPairs e) ++ [',', ' ', ':', 'f', ' ', ':'])

theorem exists_entryText_eq_head (floats : FloatText) (e : OpEntry) :
    ∃ rest, entryText floats e = headText floats e ++ rest := by
  refine ⟨e.f.name.toList ++ (writeEdnPairs floats false [(.keyword "value", e.value)] ++ ['}']),
    ?_⟩
  simp [entryText, entryToValue, headText, headPairs, writeEdn, writeEdnPairs, writeEdnPair]

theorem headPairs_plain (e : OpEntry) : ∀ p ∈ headPairs e,
    (p.1.KeywordsPlain ∧ p.1.FloatsFinite) ∧ p.2.KeywordsPlain ∧ p.2.FloatsFinite := by
  have hname : PlainName "f" := plainName_of_mem (by decide)
  have hnil : Value.nil.KeywordsPlain ∧ Value.nil.FloatsFinite := by decide
  have hentry : (entryToValue { e with f := ⟨"f"⟩, value := .nil }).KeywordsPlain ∧
      (entryToValue { e with f := ⟨"f"⟩, value := .nil }).FloatsFinite :=
    ⟨entryToValue_keywordsPlain hname hnil.1, entryToValue_floatsFinite hnil.2⟩
  intro p hp
  have hin : p ∈ headPairs e ++ [(.keyword "f", .keyword "f"), (.keyword "value", .nil)] :=
    List.mem_append_left _ hp
  obtain ⟨hkey, hvalue⟩ := Value.KeywordsPlain.of_map hentry.1 hin
  obtain ⟨hkey', hvalue'⟩ := Value.FloatsFinite.of_map hentry.2 hin
  exact ⟨⟨hkey, hkey'⟩, hvalue, hvalue'⟩

/-- The pairs that are read when a line starts like an entry. -/
theorem parse_head {e : OpEntry} {rest : List Char} {v : Value}
    (h : Edn.parse floats (headText floats e ++ rest) = .ok v) :
    ∃ name pairs, PlainName name ∧
      v = .map (headPairs e ++ (.keyword "f", .keyword name) :: pairs) := by
  obtain ⟨tail, hread, -⟩ := Edn.parse_eq_ok_iff.mp h
  have hbytes : Edn.skipWs (utf8 (headText floats e ++ rest)) = '{'.toUInt8 ::
      (utf8 (writeEdnPairs floats true (headPairs e)) ++ (','.toUInt8 :: ' '.toUInt8 ::
        ':'.toUInt8 :: 'f'.toUInt8 :: ' '.toUInt8 :: ':'.toUInt8 :: utf8 rest)) := by
    rw [headText, List.cons_append, utf8_cons_ascii (by decide), utf8_append, utf8_append,
      List.append_assoc]
    rfl
  rw [hbytes] at hread
  obtain ⟨pairs, rfl, hpairs⟩ := hread.of_brace
  obtain ⟨more, heq, hmore⟩ := hpairs.written_pairs (headPairs_plain e)
    (fun b hb ↦ by rw [← Option.some.inj hb]; decide)
  obtain rfl := Value.map.inj heq
  -- The key `:f` is read as such, and the value after it starts with a colon.
  have hkey := @Edn.reads_writeEdn floats (.keyword "f") (by decide +kernel)
    (by decide) (' '.toUInt8 :: ':'.toUInt8 :: utf8 rest)
    (fun b hb ↦ by rw [← Option.some.inj hb]; decide)
  have hwritten : utf8 (writeEdn floats (.keyword "f")) = [':'.toUInt8, 'f'.toUInt8] := by
    rw [writeEdn]
    decide
  have hskip : Edn.skipWs (','.toUInt8 :: ' '.toUInt8 :: ':'.toUInt8 :: 'f'.toUInt8 ::
      ' '.toUInt8 :: ':'.toUInt8 :: utf8 rest) =
      ':'.toUInt8 :: 'f'.toUInt8 :: ' '.toUInt8 :: ':'.toUInt8 :: utf8 rest := rfl
  rw [hwritten] at hkey
  cases hmore with
  | endPairs hend =>
    obtain ⟨hbrace, -⟩ := List.cons.inj (hskip.symm.trans hend)
    exact absurd hbrace (by decide)
  | pair hstart hb hk hv hlater =>
    obtain ⟨rfl, rfl⟩ := List.cons.inj (hskip.symm.trans hstart)
    obtain ⟨rfl, rfl⟩ := hkey.unique hk
    obtain ⟨name, rfl, hname⟩ := hv.of_colon rfl
    exact ⟨name, _, hname, rfl⟩

/-- A line that starts like an entry and is read names its function plainly. -/
theorem plainName_of_lineToEntry {e e' : OpEntry} {rest : List Char}
    (h : lineToEntry floats (headText floats e ++ rest) = .ok e') : PlainName e'.f.name := by
  obtain ⟨v, hv, hentry⟩ := except_bind_eq_ok.mp h
  obtain ⟨name, pairs, hname, rfl⟩ := parse_head hv
  have hf : readFunction (getField (headPairs e ++ (.keyword "f", .keyword name) :: pairs) "f") =
      .ok ⟨name⟩ := by
    simp [headPairs, getField, readFunction]
  simp only [valueToEntry, except_bind_eq_ok, hf] at hentry
  obtain ⟨index, -, nanos, -, clock, -, kind, -, process, -, f, hname', hentry⟩ := hentry
  obtain rfl := Except.ok.inj hname'
  obtain rfl := except_pure_eq_ok.mp hentry
  exact hname

/-! ### Histories -/

theorem mem_of_getField {pairs : List (Value × Value)} {key : String} {v : Value}
    (h : getField pairs key = some v) : ∃ p ∈ pairs, p.2 = v := by
  obtain ⟨⟨k, val⟩, hp, hv⟩ := List.exists_of_findSome?_eq_some h
  refine ⟨(k, val), hp, ?_⟩
  simp only at hv
  split at hv
  · split_ifs at hv
    exact Option.some.inj hv
  · split_ifs at hv
    exact Option.some.inj hv
  · cases hv

/-- The value of an entry is one that was read, or `nil`. -/
theorem keywordsPlain_of_valueToEntry {v : Value} {e : OpEntry} (hv : v.KeywordsPlain)
    (h : valueToEntry v = .ok e) : e.value.KeywordsPlain := by
  cases v with
  | map pairs =>
    simp only [valueToEntry, except_bind_eq_ok] at h
    obtain ⟨index, -, nanos, -, clock, -, kind, -, process, -, f, -, h⟩ := h
    obtain rfl := except_pure_eq_ok.mp h
    show ((getField pairs "value").getD .nil).KeywordsPlain
    cases hfield : getField pairs "value" with
    | none => exact fun k hk ↦ by simp [Value.parts] at hk
    | some value =>
      obtain ⟨p, hp, rfl⟩ := mem_of_getField hfield
      exact (hv.of_map hp).2
  | _ => cases h

theorem keywordsPlain_of_parse {s : List Char} {v : Value} (h : Edn.parse floats s = .ok v) :
    v.KeywordsPlain := by
  obtain ⟨tail, hread, -⟩ := Edn.parse_eq_ok_iff.mp h
  exact hread.keywordsPlain

theorem keywordsPlain_of_lineToEntry {line : List Char} {e : OpEntry}
    (h : lineToEntry floats line = .ok e) : e.value.KeywordsPlain := by
  obtain ⟨v, hv, hentry⟩ := except_bind_eq_ok.mp h
  exact keywordsPlain_of_valueToEntry (keywordsPlain_of_parse hv) hentry

/-- One sequence, read as JSON. -/
def readsJson (s : List Char) : Prop :=
  isSequence (trimStart s) = true ∧ looksLikeJson (trimStart s) = true

/-- The values that are read from EDN are plain. -/
theorem keywordsPlain_of_fromJepsen {s : List Char} {h : History}
    (hread : fromJepsen floats s = .ok h) (hjson : ¬ readsJson s) :
    ∀ e ∈ h.entries, e.value.KeywordsPlain := by
  intro e he
  unfold fromJepsen at hread
  simp only at hread
  split_ifs at hread with hsequence hlooks
  · exact absurd ⟨hsequence, hlooks⟩ hjson
  · obtain ⟨v, hv, hread⟩ := except_bind_eq_ok.mp hread
    cases v with
    | list items =>
      obtain ⟨entries, hentries, rfl⟩ := except_map_eq_ok.mp hread
      obtain ⟨w, hw, hentry⟩ := exists_of_mapM_eq_ok hentries he
      exact keywordsPlain_of_valueToEntry ((keywordsPlain_of_parse hv).of_list hw) hentry
    | _ => cases hread
  · obtain ⟨entries, hentries, rfl⟩ := except_map_eq_ok.mp hread
    obtain ⟨line, -, hline⟩ := exists_of_mapM_eq_ok hentries he
    exact keywordsPlain_of_lineToEntry hline

theorem newline_notMem_headText (floats : FloatText) (e : OpEntry) :
    '\n' ∉ headText floats e := by
  have hpairs : '\n' ∉ writeEdn floats (.map (headPairs e)) :=
    newline_notMem_writeEdn fun k hk ↦ by
      obtain hk | ⟨p, hp, hpart⟩ := Value.mem_parts_map.mp hk
      · cases hk
      · exact hpart.elim ((headPairs_plain e p hp).1.1 k) ((headPairs_plain e p hp).2.1 k)
  rw [writeEdn] at hpairs
  simp only [List.mem_cons, List.mem_append, not_or] at hpairs
  simp [headText, hpairs.2.1]

/-- The first line starts with the head of the first entry. -/
theorem exists_entryLines_eq (e : OpEntry) (entries : List OpEntry) :
    ∃ line more, entryLines (History.toJepsenEdn floats ⟨e :: entries⟩) =
      (headText floats e ++ line) :: more := by
  obtain ⟨rest, hrest⟩ := exists_entryText_eq_head floats e
  obtain ⟨start, hstart⟩ : ∃ start, headText floats e = '{' :: start := ⟨_, rfl⟩
  have hlast : (headText floats e).getLast? ≠ some '\r' := by
    rw [headText, ← List.cons_append, List.getLast?_append_of_ne_nil _ (by decide)]
    decide
  obtain ⟨line, more, hlines⟩ := lines_head (hstart ▸ newline_notMem_headText floats e)
    (hstart ▸ hlast) (rest ++ '\n' :: History.toJepsenEdn floats ⟨entries⟩)
  have htrim : trim ('{' :: (start ++ line)) ≠ [] :=
    trim_ne_nil (c := '{') List.mem_cons_self (by decide)
  refine ⟨line, more.filter fun line ↦ trim line ≠ [], ?_⟩
  rw [toJepsenEdn_cons, hrest, hstart, List.append_assoc, List.cons_append, entryLines, hlines,
    List.filter_cons, if_pos (decide_eq_true htrim)]
  rfl

/-- Entries that are read back from their own lines are plain. -/
theorem namesPlain_of_entryLines {entries : List OpEntry}
    (h : (entryLines (History.toJepsenEdn floats ⟨entries⟩)).mapM (lineToEntry floats) =
      .ok entries) : History.NamesPlain ⟨entries⟩ := by
  induction entries with
  | nil => exact fun e he ↦ by cases he
  | cons e entries ih =>
    obtain ⟨line, more, hlines⟩ := @exists_entryLines_eq floats e entries
    obtain ⟨hfirst, -⟩ := mapM_cons_eq_ok.mp (hlines ▸ h)
    have hname := plainName_of_lineToEntry hfirst
    have hvalue := keywordsPlain_of_lineToEntry hfirst
    rw [entryLines_cons hname hvalue] at h
    obtain ⟨-, hrest⟩ := mapM_cons_eq_ok.mp h
    exact List.forall_mem_cons.mpr ⟨⟨hname, hvalue⟩, ih hrest⟩

/-- A history is read back from its EDN text exactly when its names are plain. -/
theorem fromJepsen_toJepsenEdn_iff {h : History} (hfinite : h.FloatsFinite) :
    fromJepsen floats (h.toJepsenEdn floats) = .ok h ↔ h.NamesPlain := by
  refine ⟨fun hread ↦ ?_, fun hnames ↦ fromJepsen_lines hnames hfinite⟩
  obtain ⟨htrim, hsequence⟩ := @trimStart_toJepsenEdn floats h
  simp only [fromJepsen, htrim, hsequence] at hread
  obtain ⟨entries, hentries, rfl⟩ := except_map_eq_ok.mp hread
  exact namesPlain_of_entryLines hentries

/-- An ingested history is read back from its EDN text exactly when its function names are plain
and, where it was ingested from JSON, so are its keywords. -/
theorem reemission_iff (floats : FloatText) (s : List Char) (h : History)
    (hread : fromJepsen floats s = .ok h) (hfinite : h.FloatsFinite) :
    fromJepsen floats (h.toJepsenEdn floats) = .ok h ↔
      ∀ e ∈ h.entries, PlainName e.f.name ∧ (readsJson s → e.value.KeywordsPlain) := by
  rw [fromJepsen_toJepsenEdn_iff hfinite]
  refine forall₂_congr fun e he ↦ and_congr_right fun _ ↦ ⟨fun hvalue _ ↦ hvalue, fun hvalue ↦ ?_⟩
  by_cases hjson : readsJson s
  · exact hvalue hjson
  · exact keywordsPlain_of_fromJepsen hread hjson e he

/-- A text whose function is named by a string with a blank in it. -/
def blankFunction : List Char :=
  "[\x7b\"index\":0,\"time\":0,\"type\":\"invoke\",\"process\":0,\"f\":\"a b\"\x7d]".toList

/-- The history that is ingested from it. -/
def blankFunctionHistory : History where
  entries := [⟨0, ⟨0, .wall⟩, .invoke, ⟨0⟩, ⟨"a b"⟩, .nil⟩]

/-- An ingested history whose EDN text is not read back. -/
theorem blankFunctionHistory_lost :
    fromJepsen sampleFloats blankFunction = .ok blankFunctionHistory ∧
      blankFunctionHistory.FloatsFinite ∧
      fromJepsen sampleFloats (blankFunctionHistory.toJepsenEdn sampleFloats) ≠
        .ok blankFunctionHistory := by
  decide +kernel

/-- Line-delimited EDN with the function given as a string. -/
def namedByString : List Char :=
  "\x7b:index 3, :time \"7\", :type :ok, :process 1, :f \"read\", :value [:k 2]\x7d\n".toList

def namedByStringHistory : History where
  entries := [⟨3, ⟨7, .wall⟩, .ok, ⟨1⟩, ⟨"read"⟩, .list [.keyword "k", .int 2]⟩]

theorem namedByStringHistory_reemission :
    fromJepsen sampleFloats (namedByStringHistory.toJepsenEdn sampleFloats) =
        .ok namedByStringHistory ↔
      ∀ e ∈ namedByStringHistory.entries,
        PlainName e.f.name ∧ (readsJson namedByString → e.value.KeywordsPlain) :=
  reemission_iff sampleFloats namedByString namedByStringHistory (by decide +kernel)
    (by decide +kernel)

end Propsim.Interchange
