import AtlasNative.Wal.Basic

/-!
# Recovery of the write-ahead log

`Ledger` says what a log is for: it retains records, those that were synced survive a crash, and of
the others a crash keeps the first few. A run of the log is a list of calls, some of which fail, and
of crashes after each of which the log is opened again.

A line that is not finished can be met again by the next append, which then continues it; and a line
cut inside a character, or after its last byte but before its line feed, is not recognised as torn.
`Machine.Clean` says that no event of a run does this, and then every run is one of the ledger.
-/

namespace AtlasNative.WalFile

open WalRecord WalFile.Wal IndexOnly

/-! ## Runs of the log -/

section

variable {T : Type}

inductive WalEvent (T : Type) where
  | append (r : WalRecord T) (written : Written) (synced : Bool)
  | appendUnsynced (r : WalRecord T) (written : Written)
  | sync (synced : Bool)
  | truncateAfter (after : UInt64)
  | compactThrough (through : UInt64)
  | reset (floor : UInt64)
  /-- A crash that keeps so many bytes of what was not synced, after which the log is opened. -/
  | crash (kept : Nat)

/-- A log and its file; there is no log when opening it has failed. -/
structure WalMachine where
  file : File
  wal : Option Wal
deriving DecidableEq

namespace WalMachine

def new : WalMachine := ⟨⟨[], []⟩, some ⟨0, 0, 0⟩⟩

/-- A call on an open log, and whether it succeeded. -/
def call {α : Type} (m : WalMachine) (x : WalM α) : WalMachine × Bool :=
  match m.wal with
  | none => (m, false)
  | some w => match x ⟨w, m.file⟩ with
    | .ok _ s => (⟨s.file, some s.wal⟩, true)
    | .error _ s => (⟨s.file, some s.wal⟩, false)

section

variable {m : WalMachine}

theorem call_ok {α : Type} {x : WalM α} {w : Wal} {a : α} {s : WalState} (hw : m.wal = some w)
    (hx : x ⟨w, m.file⟩ = .ok a s) : m.call x = (⟨s.file, some s.wal⟩, true) := by
  simp only [call, hw, hx]

theorem call_error {α : Type} {x : WalM α} {w : Wal} {e : WalError} {s : WalState}
    (hw : m.wal = some w) (hx : x ⟨w, m.file⟩ = .error e s) :
    m.call x = (⟨s.file, some s.wal⟩, false) := by
  simp only [call, hw, hx]

theorem eq_of_wal {w : Wal} (h : m.wal = some w) : m = ⟨m.file, some w⟩ := by rw [← h]

end

end WalMachine

theorem sync_idle {s : WalState} (h : s.wal.syncedIndex = s.wal.lastIndex) (synced : Bool) :
    sync synced s = .ok () s := by
  simp only [sync, bind, EStateM.bind, get, getThe, MonadStateOf.get, EStateM.get]
  rw [if_neg (by rw [h]; exact UInt64.lt_irrefl _)]
  rfl

theorem sync_behind {s : WalState} (h : s.wal.syncedIndex < s.wal.lastIndex) (ok : Bool) : sync ok s =
    bif ok then .ok () ⟨{ s.wal with syncedIndex := s.wal.lastIndex }, ⟨s.file.bytes, []⟩⟩ else .error .io s := by
  simp only [sync, bind, EStateM.bind, get, getThe, MonadStateOf.get, EStateM.get]
  rw [if_pos h]
  cases ok <;> rfl

/-! ## What a log is for -/

/-- The records a log retains: those a crash keeps, and those it may lose. -/
structure Ledger (T : Type) where
  synced : List (WalRecord T)
  unsynced : List (WalRecord T)
  /-- Appended records have greater indexes. -/
  last : UInt64

namespace Ledger

def new : Ledger T := ⟨[], [], 0⟩

def records (l : Ledger T) : List (WalRecord T) := l.synced ++ l.unsynced

def lastOf (rs : List (WalRecord T)) : UInt64 := (rs.getLast?.map (·.index)).getD 0

/-- What a crash leaves that loses all but `n` of the records not synced. -/
def crash (l : Ledger T) (n : Nat) : Ledger T :=
  ⟨l.synced ++ l.unsynced.take n, [], lastOf (l.synced ++ l.unsynced.take n)⟩

/-- One event, whether it returned without error, and what it does to the retained records. -/
inductive Step : Ledger T → WalEvent T → Bool → Ledger T → Prop
  | refuse {l r} (written synced) (h : r.index ≤ l.last) : Step l (.append r written synced) false l
  | refuseUnsynced {l r} (written) (h : r.index ≤ l.last) :
    Step l (.appendUnsynced r written) false l
  | fail {l r} (n synced) (h : l.last < r.index) : Step l (.append r (.failed n) synced) false l
  | failUnsynced {l r} (n) (h : l.last < r.index) : Step l (.appendUnsynced r (.failed n)) false l
  | append {l r} (h : l.last < r.index) :
    Step l (.append r .all true) true ⟨l.records ++ [r], [], r.index⟩
  | appendNoSync {l r} (h : l.last < r.index) :
    Step l (.append r .all false) false ⟨l.synced, l.unsynced ++ [r], r.index⟩
  | appendUnsynced {l r} (h : l.last < r.index) :
    Step l (.appendUnsynced r .all) true ⟨l.synced, l.unsynced ++ [r], r.index⟩
  | sync {l} : Step l (.sync true) true ⟨l.records, [], l.last⟩
  | noSync {l} : Step l (.sync false) (l.unsynced.isEmpty) l
  | truncateAfter {l} (after) :
    Step l (.truncateAfter after) true ⟨l.records.filter (·.index ≤ after), [], after⟩
  | compactThrough {l} (through) :
    Step l (.compactThrough through) true ⟨l.records.filter (through < ·.index), [], l.last⟩
  | reset {l} (floor) : Step l (.reset floor) true ⟨[], [], floor⟩
  | crash {l} (kept n) : Step l (.crash kept) true (l.crash n)

inductive Run : Ledger T → List (WalEvent T) → List Bool → Ledger T → Prop
  | nil {l} : Run l [] [] l
  | cons {l l' l'' e es ok oks} : Step l e ok l' → Run l' es oks l'' →
    Run l (e :: es) (ok :: oks) l''

end Ledger

theorem le_lastOf {rs : List (WalRecord T)} (h : rs.Pairwise (·.index < ·.index)) {r : WalRecord T}
    (hr : r ∈ rs) : r.index ≤ Ledger.lastOf rs := by
  rcases List.eq_nil_or_concat rs with rfl | ⟨rs, x, rfl⟩
  · cases hr
  · rw [List.concat_eq_append] at h hr ⊢
    simp only [Ledger.lastOf, List.getLast?_concat, Option.map_some, Option.getD_some]
    rcases List.mem_append.mp hr with hr | hr
    · exact UInt64.le_of_lt ((List.pairwise_append.mp h).2.2 r hr x (by simp))
    · rw [List.mem_singleton.mp hr]
      exact UInt64.le_refl _

/-! ## Lines and bytes -/

theorem splitLines_cons_line {l : List UInt8} (h : 10 ∉ l) (bs : List UInt8) :
    splitLines (l ++ 10 :: bs) = (l :: (splitLines bs).1, (splitLines bs).2) := by
  induction l with
  | nil => simp [splitLines]
  | cons b l ih =>
    simp only [List.mem_cons, not_or] at h
    simp [splitLines, ih h.2, Ne.symm h.1]

theorem splitLines_of_notMem {t : List UInt8} (h : 10 ∉ t) : splitLines t = ([], t) := by
  induction t with
  | nil => rfl
  | cons b t ih =>
    simp only [List.mem_cons, not_or] at h
    simp [splitLines, ih h.2, Ne.symm h.1]

theorem mapM_decodeLine (ls : List Text) : (ls.map Text.utf8).mapM decodeLine = .ok ls := by
  induction ls with
  | nil => rfl
  | cons l ls ih => simp [List.mapM_cons, decodeLine, Text.ofUtf8_utf8, ih]; rfl

theorem rposition_concat {α : Type} (p : α → Bool) (l : List α) {a : α} (h : p a = true) :
    rposition p (l ++ [a]) = some l.length := by
  induction l with
  | nil => simp [rposition, h]
  | cons b l ih => simp [rposition, ih]

variable [IndexOnly] [Serde T]

namespace WalMachine

def exec (m : WalMachine) : WalEvent T → WalMachine × Bool
  | .append r written synced => m.call (Wal.append r written synced)
  | .appendUnsynced r written => m.call (Wal.appendUnsynced r written)
  | .sync synced => m.call (Wal.sync synced)
  | .truncateAfter after => m.call (Wal.truncateAfter after)
  | .compactThrough through => m.call (Wal.compactThrough through)
  | .reset floor => m.call (Wal.reset floor)
  | .crash kept => match Wal.open (m.file.crash kept) with
    | .ok s => (⟨s.file, some s.wal⟩, true)
    | .error _ => (⟨m.file.crash kept, none⟩, false)

/-- The machine after a run, and what its events returned. -/
def run (m : WalMachine) : List (WalEvent T) → WalMachine × List Bool
  | [] => (m, [])
  | e :: es =>
    let (m, ok) := m.exec e
    let (m, oks) := m.run es
    (m, ok :: oks)

end WalMachine

/-! ## Events that leave no unfinished line behind -/

/-- Nothing follows the last line feed. -/
def EndsLine (bytes : List UInt8) : Prop := (splitLines bytes).2 = []

instance (bytes : List UInt8) : Decidable (EndsLine bytes) := inferInstanceAs (Decidable (_ = _))

/-- The bytes are cut between two characters, and not just before a line feed. -/
def CleanCut (bytes : List UInt8) (kept : Nat) : Prop :=
  (Text.ofUtf8 (bytes.take kept)).isSome ∧ (bytes.drop kept).head? ≠ some 10

instance (bytes : List UInt8) (kept : Nat) : Decidable (CleanCut bytes kept) :=
  inferInstanceAs (Decidable (_ ∧ _))

/-- A write that fails cuts the line cleanly; it leaves its line feed out in any case. -/
def Written.Clean (written : Written) (r : WalRecord T) : Prop :=
  match written with
  | .all => True
  | .failed n => CleanCut r.line (min n r.text.utf8.length)

instance (r : WalRecord T) : (written : Written) → Decidable (written.Clean r)
  | .all => inferInstanceAs (Decidable True)
  | .failed _ => inferInstanceAs (Decidable (CleanCut ..))

/-- An append, if it writes, starts at the beginning of a line and does not cut it badly. -/
def WalMachine.CleanAppend (m : WalMachine) (r : WalRecord T) (written : Written) : Prop :=
  ∀ w ∈ m.wal, w.lastIndex < r.index → EndsLine m.file.bytes ∧ written.Clean r

instance (m : WalMachine) (r : WalRecord T) (written : Written) :
    Decidable (m.CleanAppend r written) := inferInstanceAs (Decidable (∀ w ∈ m.wal, _))

/-- An append starts a line, and neither a failed write nor a crash cuts a line inside a character
or just before its line feed. -/
def WalMachine.Clean (m : WalMachine) : WalEvent T → Prop
  | .append r written _ | .appendUnsynced r written => m.CleanAppend r written
  | .crash kept => CleanCut m.file.bytes (m.file.durable.length + kept)
  | _ => True

instance (m : WalMachine) : (e : WalEvent T) → Decidable (m.Clean e)
  | .append r written _ | .appendUnsynced r written => inferInstanceAs (Decidable (m.CleanAppend r written))
  | .crash _ => inferInstanceAs (Decidable (CleanCut ..))
  | .sync _ | .truncateAfter _ | .compactThrough _ | .reset _ => inferInstanceAs (Decidable True)

def WalMachine.CleanRun (m : WalMachine) : List (WalEvent T) → Prop
  | [] => True
  | e :: es => m.Clean e ∧ (m.exec e).1.CleanRun es

instance : (m : WalMachine) → (es : List (WalEvent T)) → Decidable (m.CleanRun es)
  | _, [] => inferInstanceAs (Decidable True)
  | m, e :: es =>
    have : Decidable ((m.exec e).1.CleanRun es) := instDecidableCleanRun (m.exec e).1 es
    inferInstanceAs (Decidable (_ ∧ _))

/-! ## The lines of a file -/

/-- The text of a log that retains `rs`. -/
def textOf (rs : List (WalRecord T)) : Text := rs.flatMap fun r => r.text ++ ['\n']

/-- The bytes of a log that retains `rs`. -/
def linesOf (rs : List (WalRecord T)) : List UInt8 := rs.flatMap WalRecord.line

theorem linesOf_append (rs ss : List (WalRecord T)) : linesOf (rs ++ ss) = linesOf rs ++ linesOf ss :=
  List.flatMap_append

theorem linesOf_eq (rs : List (WalRecord T)) : linesOf rs = (textOf rs).utf8 := by
  have hline : ∀ r : WalRecord T, r.line = Text.utf8 (r.text ++ ['\n']) := fun r => by
    rw [Text.utf8_append]
    rfl
  rw [linesOf, funext hline, textOf, Text.utf8, List.flatMap_assoc]
  rfl

section

variable (r : WalRecord T)
include r

theorem linesOf_singleton : linesOf [r] = r.line := by
  simp [linesOf]

theorem WalRecord.lineFeed_notMem : 10 ∉ r.text.utf8 := Text.lineFeed_notMem_utf8 (Serde.lineFeed_notMem_text r)

omit r in
theorem splitLines_linesOf (rs : List (WalRecord T)) {t : List UInt8} (h : 10 ∉ t) :
    splitLines (linesOf rs ++ t) = (rs.map (·.text.utf8), t) := by
  induction rs with
  | nil => exact splitLines_of_notMem h
  | cons r rs ih =>
    have hsplit := splitLines_cons_line r.lineFeed_notMem (linesOf rs ++ t)
    rw [ih] at hsplit
    simpa [linesOf, line] using hsplit

/-! ## Reading a record back -/

theorem indexOnly_text : indexOnly r.text = some r.index := Serde.indexOnly_text r

theorem ofText_text : Serde.ofText r.text = some r := Serde.ofText_text r

theorem stripReturn_text : stripReturn r.text.utf8 = r.text.utf8 := by
  obtain ⟨cs, hcs⟩ := Serde.text_braces r
  have hlast : r.text.utf8.getLast? = some 125 := by
    rw [text, hcs, Text.utf8_append]
    exact List.getLast?_concat ..
  rw [stripReturn, hlast, if_neg (by decide)]

/-- A beginning of a record's text is not blank. -/
theorem not_blank_of_cut {cs : Text} (h : cs <+: r.text) (hne : cs ≠ []) : cs.all isWhitespace = false := by
  obtain ⟨ds, hds⟩ := Serde.text_braces r
  rw [text, hds] at h
  cases cs with
  | nil => exact absurd rfl hne
  | cons c cs =>
    obtain ⟨rfl, -⟩ := List.cons_prefix_cons.mp h
    rfl

theorem not_blank_text : r.text.all isWhitespace = false := by
  obtain ⟨ds, hds⟩ := Serde.text_braces r
  exact not_blank_of_cut r List.prefix_rfl (by simp [text, hds])

end

/-! ## Scanning a log whose last line may be torn -/

/-- A record's text cut short, or nothing at all. -/
def Torn (T : Type) [Serde T] (cs : Text) : Prop :=
  cs = [] ∨ ∃ r : WalRecord T, cs <+: r.text ∧ cs ≠ r.text

section

variable {cs : Text} (h : Torn T cs)
include h

theorem Torn.notMem : 10 ∉ cs.utf8 := by
  rcases h with rfl | ⟨r, hcs, -⟩
  · simp [Text.utf8]
  · exact Text.lineFeed_notMem_utf8 fun hmem => Serde.lineFeed_notMem_text r (hcs.subset hmem)

theorem Torn.of_prefix {ds : Text} (hds : ds <+: cs) : Torn T ds := by
  rcases h with rfl | ⟨r, hcs, hne⟩
  · exact .inl (List.prefix_nil.mp hds)
  · refine .inr ⟨r, hds.trans hcs, ?_⟩
    rintro rfl
    exact hne (hcs.eq_of_length_le hds.length_le)

theorem Torn.not_blank (hne : cs ≠ []) : cs.all isWhitespace = false ∧ indexOnly cs = none := by
  rcases h with rfl | ⟨r, hcs, hcut⟩
  · exact absurd rfl hne
  · exact ⟨not_blank_of_cut r hcs hne, Serde.indexOnly_cut hcs hcut⟩

end

/-- The lines the scan sees. -/
def textsOf (rs : List (WalRecord T)) (torn : Text) : List Text :=
  rs.map WalRecord.text ++ if torn = [] then [] else [torn]

theorem readLines_linesOf (rs : List (WalRecord T)) {cs : Text} (h : Torn T cs) :
    readLines (linesOf rs ++ cs.utf8) = .ok (textsOf rs cs) := by
  have hlines : rs.map (stripReturn ∘ (·.text.utf8)) = (rs.map text).map Text.utf8 := by
    simp [stripReturn_text]
  have htail : (if cs.utf8 = [] then [] else [cs.utf8]) =
      (if cs = [] then [] else [cs]).map Text.utf8 := by
    by_cases hnil : cs = []
    · subst hnil; rfl
    · simp [hnil, Text.utf8_ne_nil hnil]
  unfold readLines
  simp only [splitLines_linesOf rs h.notMem, List.map_map]
  rw [hlines, htail, ← List.map_append]
  exact mapM_decodeLine (textsOf rs cs)

/-- The index and the text of each record. -/
def entriesOf (rs : List (WalRecord T)) : List (UInt64 × Text) := rs.map fun r => (r.index, r.text)

theorem scanLines_records (last : Option Nat) (rs ss : List (WalRecord T)) (n : Nat)
    (rest : List Text) (h : (ss ++ rs).Pairwise (·.index < ·.index)) :
    scanLines last n (entriesOf ss) false (rs.map text ++ rest) =
      scanLines last (n + rs.length) (entriesOf (ss ++ rs)) false rest := by
  induction rs generalizing n ss with
  | nil => simp
  | cons r rs ih =>
    have hblank := not_blank_text r
    have hcat : entriesOf ss ++ [(r.index, r.text)] = entriesOf (ss ++ [r]) := by
      simp [entriesOf]
    have hih := ih (ss ++ [r]) (n + 1) (by simpa using h)
    simp only [List.append_assoc, List.singleton_append] at hih
    simp only [List.map_cons, List.cons_append, scanLines, hblank, Bool.false_eq_true, if_false,
      indexOnly_text, hcat]
    rw [hih, List.length_cons, add_right_comm, add_assoc n]
    cases hlast : (entriesOf ss).getLast? with
    | none => rfl
    | some x =>
      obtain ⟨r', hr', rfl⟩ := List.mem_map.mp (List.mem_of_getLast? hlast)
      have hlt : r'.index < r.index := (List.pairwise_append.mp h).2.2 r' hr' r (by simp)
      simp [UInt64.not_le.mpr hlt]

section

variable {rs : List (WalRecord T)} {cs : Text} (hrs : rs.Pairwise (·.index < ·.index))
  (h : Torn T cs)
include hrs h

theorem scan_linesOf : scan (linesOf rs ++ cs.utf8) = .ok (entriesOf rs, decide (cs ≠ [])) := by
  have hgo : ∀ last, scanLines last 0 [] false (textsOf rs cs) =
      scanLines last rs.length (entriesOf rs) false (if cs = [] then [] else [cs]) := fun last => by
    simpa [textsOf, entriesOf] using scanLines_records last rs [] 0 _ (by simpa using hrs)
  simp only [scan, readLines_linesOf rs h, bind, Except.bind, hgo]
  by_cases hnil : cs = []
  · simp [hnil, scanLines]
  · obtain ⟨hblank, hindex⟩ := h.not_blank hnil
    have hlast : rposition (fun line => !line.all isWhitespace) (textsOf rs cs) = some rs.length := by
      simpa [textsOf, hnil] using rposition_concat (fun line : Text => !line.all isWhitespace)
        (rs.map text) (a := cs) (by simp [hblank])
    simp [hnil, scanLines, hblank, hindex, hlast]

/-! ## Operations on a log whose last line may be torn -/

omit hrs h in
theorem mapM_decodeRecord (rs : List (WalRecord T)) :
    (entriesOf rs).mapM (fun l => decodeRecord (T := T) l.2) = .ok rs := by
  induction rs with
  | nil => rfl
  | cons r rs ih =>
    simp only [entriesOf, List.map_cons, List.mapM_cons, decodeRecord, ofText_text] at ih ⊢
    rw [ih]
    rfl

theorem replay_linesOf : replay (linesOf rs ++ cs.utf8) = .ok rs := by
  simp only [replay, scan_linesOf hrs h, bind, Except.bind]
  exact mapM_decodeRecord rs

/-- A rewrite keeps the records asked for, and nothing torn. -/
theorem rewrite_linesOf {s : WalState} (hs : s.file.bytes = linesOf rs ++ cs.utf8) (keep : UInt64 → Bool) :
    rewrite keep s = .ok (s.wal.records - (rs.filter (keep ·.index)).length) ⟨{ s.wal with
          syncedIndex := s.wal.lastIndex, records := (rs.filter (keep ·.index)).length },
        ⟨linesOf (rs.filter (keep ·.index)), []⟩⟩ := by
  have hkept : (entriesOf rs).filter (fun l => keep l.1) = entriesOf (rs.filter (keep ·.index)) := by
    simp only [entriesOf, List.filter_map]
    rfl
  have hlines : ∀ rs : List (WalRecord T),
      ((entriesOf rs).flatMap fun l => l.2.utf8 ++ [10]) = linesOf rs := fun rs => by
    simp only [entriesOf, List.flatMap_map, linesOf]
    rfl
  have hlen : ∀ rs : List (WalRecord T), (entriesOf rs).length = rs.length := fun rs => by
    simp [entriesOf]
  have hfile : scanFile s = .ok (entriesOf rs, decide (cs ≠ [])) s := by
    simp only [scanFile, bind, EStateM.bind, get, getThe, MonadStateOf.get, EStateM.get, hs, scan_linesOf hrs h]
    rfl
  simp only [rewrite, bind, EStateM.bind, hfile, hkept, get, getThe, MonadStateOf.get,
    EStateM.get, set, MonadStateOf.set, EStateM.set, hlines, hlen]
  rfl

theorem open_linesOf {f : File} (hf : f.bytes = linesOf rs ++ cs.utf8) :
    ∃ w, Wal.open f = .ok ⟨w, if cs = [] then f else ⟨linesOf rs, []⟩⟩ ∧
      w.lastIndex = Ledger.lastOf rs ∧ w.syncedIndex = Ledger.lastOf rs := by
  have hscan := scan_linesOf hrs h
  have hlast : (opened (entriesOf rs)).lastIndex = Ledger.lastOf rs := by
    simp only [opened, Ledger.lastOf, entriesOf, List.getLast?_map, Option.map_map]
    rfl
  by_cases hnil : cs = []
  · refine ⟨opened (entriesOf rs), ?_, hlast, hlast⟩
    rw [Wal.open, hf, hscan]
    simp [bind, Except.bind, hnil]
  · have hrewrite := rewrite_linesOf hrs h (s := ⟨opened (entriesOf rs), f⟩) hf fun _ => true
    have hall : rs.filter (fun _ => true) = rs := List.filter_eq_self.mpr fun _ _ => rfl
    rw [hall] at hrewrite
    refine ⟨{ opened (entriesOf rs) with records := rs.length }, ?_, hlast, hlast⟩
    simp [Wal.open, hf, hscan, bind, Except.bind, hnil, hrewrite]
    rfl

end

/-! ## The log refines the ledger -/

structure WalMachine.Holds (m : WalMachine) (l : Ledger T) : Prop where
  wal : ∃ w, m.wal = some w ∧ w.lastIndex = l.last ∧
    (l.unsynced = [] → w.syncedIndex = l.last) ∧ (l.unsynced ≠ [] → w.syncedIndex < l.last)
  bytes : ∃ cs, Torn T cs ∧ m.file.bytes = linesOf l.records ++ Text.utf8 cs
  durable : linesOf l.synced <+: m.file.durable
  ordered : l.records.Pairwise (·.index < ·.index)
  bounded : ∀ r ∈ l.records, r.index ≤ l.last

theorem Torn.nil : Torn T [] := .inl rfl

theorem holds_new : WalMachine.new.Holds (Ledger.new (T := T)) where
  wal := ⟨⟨0, 0, 0⟩, rfl, rfl, fun _ => rfl, fun h => absurd rfl h⟩
  bytes := ⟨[], Torn.nil, rfl⟩
  durable := List.nil_prefix
  ordered := List.Pairwise.nil
  bounded := by simp [Ledger.new, Ledger.records]

/-- What a failed write leaves of a line. -/
theorem Written.Clean.torn {r : WalRecord T} {n : Nat} (h : Written.Clean (.failed n) r) :
    ∃ cs, Torn T cs ∧ r.text.utf8.take n = cs.utf8 := by
  obtain ⟨hwhole, hnext⟩ := h
  have htake : r.line.take (min n r.text.utf8.length) = r.text.utf8.take n := by
    rw [line, List.take_append_of_le_length (min_le_right ..), List.take_eq_take_min]
    simp
  obtain ⟨cs, hcs⟩ := Option.isSome_iff_exists.mp hwhole
  rw [htake] at hcs
  have hbytes := Text.eq_utf8_of_ofUtf8 hcs
  refine ⟨cs, .inr ⟨r, Text.isPrefix_of_utf8 (hbytes ▸ List.take_prefix ..), ?_⟩, hbytes⟩
  rintro rfl
  have hlen : r.text.utf8.length ≤ n := by
    have := congrArg List.length hbytes
    rw [List.length_take] at this
    omega
  exact hnext (by simp [line, min_eq_right hlen])

/-- What a cut leaves of some lines that is not just before a line feed: the first few of them, and a
torn one. -/
theorem exists_cut {us : List (WalRecord T)} {cs ds rest : Text} (hcs : Torn T cs)
    (hds : ds ++ rest = textOf us ++ cs) (hrest : rest.head? ≠ some '\n') :
    ∃ n cs', Torn T cs' ∧ ds = textOf (us.take n) ++ cs' := by
  induction us generalizing ds with
  | nil => exact ⟨0, ds, hcs.of_prefix ⟨rest, hds⟩, rfl⟩
  | cons u us ih =>
    have hline : textOf (u :: us) ++ cs = u.text ++ '\n' :: (textOf us ++ cs) := by simp [textOf]
    rw [hline] at hds
    rcases List.append_eq_append_iff.mp hds with ⟨x, hx, rfl⟩ | ⟨x, rfl, hx⟩
    · -- the cut is inside this line
      refine ⟨0, ds, .inr ⟨u, ⟨x, hx.symm⟩, ?_⟩, rfl⟩
      rintro rfl
      obtain rfl := List.self_eq_append_right.mp hx
      exact hrest rfl
    · cases x with
      | nil =>
        rw [List.nil_append] at hx
        subst hx
        exact absurd rfl hrest
      | cons c x =>
        obtain ⟨rfl, htail⟩ := List.cons.inj hx
        obtain ⟨n, cs', hcs', rfl⟩ := ih htail.symm
        exact ⟨n + 1, cs', hcs', by simp [textOf]⟩

/-! ### Appends -/

theorem appendUnsynced_refused {r : WalRecord T} {s : WalState} (h : r.index ≤ s.wal.lastIndex)
    (written : Written) : appendUnsynced r written s = .error (.indexRegression s.wal.lastIndex r.index) s := by
  simp only [appendUnsynced, bind, EStateM.bind, get, getThe, MonadStateOf.get, EStateM.get]
  rw [if_pos h]
  rfl

theorem appendUnsynced_failed {r : WalRecord T} {s : WalState} (h : s.wal.lastIndex < r.index)
    (n : Nat) : appendUnsynced r (.failed n) s =
      .error .io { s with file.pending := s.file.pending ++ r.text.utf8.take n } := by
  have hline : r.line.dropLast = r.text.utf8 := by simp [line]
  simp only [appendUnsynced, bind, EStateM.bind, get, getThe, MonadStateOf.get, EStateM.get]
  rw [if_neg (UInt64.not_le.mpr h), ← hline]
  rfl

theorem appendUnsynced_all {r : WalRecord T} {s : WalState} (h : s.wal.lastIndex < r.index) :
    appendUnsynced r .all s = .ok () ⟨{ s.wal with
      lastIndex := r.index, records := s.wal.records + 1 },
      { s.file with pending := s.file.pending ++ r.line }⟩ := by
  simp only [appendUnsynced, bind, EStateM.bind, get, getThe, MonadStateOf.get, EStateM.get]
  rw [if_neg (UInt64.not_le.mpr h)]
  rfl

namespace WalMachine

variable {m : WalMachine} {l : Ledger T}

/-- The event does to the machine what it does to the ledger. -/
def Follows (m : WalMachine) (l : Ledger T) (e : WalEvent T) : Prop :=
  ∃ l', Ledger.Step l e (m.exec e).2 l' ∧ (m.exec e).1.Holds l'

section

variable (h : m.Holds l)
include h

theorem Holds.bytes_eq (hstart : EndsLine m.file.bytes) : m.file.bytes = linesOf l.records := by
  obtain ⟨cs, hcs, hbytes⟩ := h.bytes
  rw [EndsLine, hbytes, splitLines_linesOf _ hcs.notMem] at hstart
  rw [hbytes, show cs.utf8 = [] from hstart, List.append_nil]

/-- A failed append leaves a torn line. -/
theorem Holds.failed {r : WalRecord T} (hstart : EndsLine m.file.bytes) {n : Nat}
    (hclean : Written.Clean (.failed n) r) : WalMachine.Holds
      { m with file.pending := m.file.pending ++ r.text.utf8.take n } l where
  wal := h.wal
  durable := h.durable
  ordered := h.ordered
  bounded := h.bounded
  bytes := by
    obtain ⟨cs, hcs, htake⟩ := hclean.torn
    refine ⟨cs, hcs, ?_⟩
    rw [← h.bytes_eq hstart, ← htake]
    simp [File.bytes]

theorem Holds.appended {r : WalRecord T} {w : Wal} (hw : m.wal = some w) (hr : l.last < r.index)
    (hstart : EndsLine m.file.bytes) :
    WalMachine.Holds ⟨{ m.file with pending := m.file.pending ++ r.line },
      some { w with lastIndex := r.index, records := w.records + 1 }⟩
      ⟨l.synced, l.unsynced ++ [r], r.index⟩ := by
  have hrecords : Ledger.records ⟨l.synced, l.unsynced ++ [r], r.index⟩ = l.records ++ [r] :=
    (List.append_assoc ..).symm
  have hbelow : ∀ r' ∈ l.records, r'.index < r.index := fun r' hr' =>
    UInt64.lt_of_le_of_lt (h.bounded r' hr') hr
  refine ⟨?_, ⟨[], Torn.nil, ?_⟩, h.durable, ?_, ?_⟩
  · obtain ⟨w', hw', -, hidle, hbusy⟩ := h.wal
    obtain rfl : w = w' := Option.mem_unique hw hw'
    refine ⟨_, rfl, rfl, fun hnil => by simp at hnil, fun _ => ?_⟩
    by_cases hu : l.unsynced = []
    · exact (hidle hu).symm ▸ hr
    · exact UInt64.lt_trans (hbusy hu) hr
  · rw [hrecords, linesOf_append, linesOf_singleton, ← h.bytes_eq hstart]
    simp [File.bytes, Text.utf8]
  · rw [hrecords]
    exact List.pairwise_append.mpr ⟨h.ordered, List.pairwise_singleton .., by simpa using hbelow⟩
  · rw [hrecords]
    intro r' hr'
    rcases List.mem_append.mp hr' with hr' | hr'
    · exact UInt64.le_of_lt (hbelow r' hr')
    · rw [List.mem_singleton.mp hr']
      exact UInt64.le_refl _

/-- A flush makes everything durable. -/
theorem Holds.flushed {w : Wal} (hw : m.wal = some w) :
    WalMachine.Holds ⟨⟨m.file.bytes, []⟩, some { w with syncedIndex := w.lastIndex }⟩ ⟨l.records, [], l.last⟩ := by
  have hrecords : Ledger.records ⟨l.records, [], l.last⟩ = l.records := List.append_nil _
  obtain ⟨w', hw', hlast, -⟩ := h.wal
  obtain rfl : w = w' := Option.mem_unique hw hw'
  obtain ⟨t, ht, hbytes⟩ := h.bytes
  refine ⟨⟨_, rfl, hlast, fun _ => hlast, fun hne => absurd rfl hne⟩, ⟨t, ht, ?_⟩, ?_, ?_, ?_⟩
  · rw [hrecords, ← hbytes]
    simp [File.bytes]
  · exact ⟨_, hbytes.symm⟩
  · rw [hrecords]; exact h.ordered
  · rw [hrecords]; exact h.bounded

/-- With nothing to flush, the ledger is the same whether a sync counts or not. -/
theorem Holds.idle (hu : l.unsynced = []) : m.Holds ⟨l.records, [], l.last⟩ := by
  have hl : l = ⟨l.records, [], l.last⟩ := by
    obtain ⟨synced, unsynced, last⟩ := l
    simp only at hu
    simp [Ledger.records, hu]
  exact hl ▸ h

theorem Holds.step_sync (synced : Bool) : m.Follows l (.sync synced) := by
  obtain ⟨w, hw, hlast, hidle, hbusy⟩ := h.wal
  have hm := eq_of_wal hw
  simp only [Follows, exec]
  by_cases hu : l.unsynced = []
  · rw [call_ok hw (sync_idle ((hidle hu).trans hlast.symm) synced), ← hm]
    cases synced with
    | false => exact ⟨l, by simpa [hu] using Ledger.Step.noSync (l := l), h⟩
    | true => exact ⟨_, .sync, h.idle hu⟩
  · have hlt : w.syncedIndex < w.lastIndex := hlast ▸ hbusy hu
    cases synced with
    | false =>
      rw [call_error hw (sync_behind hlt false), ← hm]
      have hstep := Ledger.Step.noSync (l := l)
      rw [show l.unsynced.isEmpty = false by simpa using hu] at hstep
      exact ⟨l, hstep, h⟩
    | true =>
      rw [call_ok hw (sync_behind hlt true)]
      exact ⟨_, .sync, h.flushed hw⟩

theorem Holds.step_appendUnsynced {r : WalRecord T} {written : Written}
    (hclean : m.Clean (.appendUnsynced r written)) : m.Follows l (.appendUnsynced r written) := by
  obtain ⟨w, hw, hlast, -⟩ := h.wal
  simp only [Follows, exec]
  by_cases hr : r.index ≤ w.lastIndex
  · rw [call_error hw (appendUnsynced_refused hr written)]
    exact ⟨l, .refuseUnsynced written (hlast ▸ hr), eq_of_wal hw ▸ h⟩
  · have hlt : w.lastIndex < r.index := UInt64.not_le.mp hr
    obtain ⟨hends, hcut⟩ := hclean w hw hlt
    cases written with
    | failed n =>
      rw [call_error hw (appendUnsynced_failed hlt n)]
      refine ⟨l, .failUnsynced n (hlast ▸ hlt), ?_⟩
      have hfailed := h.failed hends hcut
      simpa [← hw] using hfailed
    | all =>
      rw [call_ok hw (appendUnsynced_all hlt)]
      exact ⟨_, .appendUnsynced (hlast ▸ hlt), h.appended hw (hlast ▸ hlt) hends⟩

theorem Holds.step_append {r : WalRecord T} {written : Written} {synced : Bool}
    (hclean : m.Clean (.append r written synced)) : m.Follows l (.append r written synced) := by
  obtain ⟨w, hw, hlast, -⟩ := h.wal
  simp only [Follows, exec]
  have hbind : ∀ {s : WalState} {e : WalError}, appendUnsynced r written ⟨w, m.file⟩ = .error e s →
      append r written synced ⟨w, m.file⟩ = .error e s := fun hx => by
    simp only [append, bind, EStateM.bind, hx]
  by_cases hr : r.index ≤ w.lastIndex
  · rw [call_error hw (hbind (appendUnsynced_refused hr written))]
    exact ⟨l, .refuse written synced (hlast ▸ hr), eq_of_wal hw ▸ h⟩
  · have hlt : w.lastIndex < r.index := UInt64.not_le.mp hr
    obtain ⟨hends, hcut⟩ := hclean w hw hlt
    cases written with
    | failed n =>
      rw [call_error hw (hbind (appendUnsynced_failed hlt n))]
      refine ⟨l, .fail n synced (hlast ▸ hlt), ?_⟩
      have hfailed := h.failed hends hcut
      simpa [← hw] using hfailed
    | all =>
      -- the record is in the file, and the sync may still fail
      have happ := h.appended hw (hlast ▸ hlt) hends
      have hthen : ∀ x, append r .all synced ⟨w, m.file⟩ = x ↔ sync synced
          ⟨{ w with lastIndex := r.index, records := w.records + 1 },
            { m.file with pending := m.file.pending ++ r.line }⟩ = x := fun x => by
        simp only [append, bind, EStateM.bind, appendUnsynced_all (s := ⟨w, m.file⟩) hlt]
      obtain ⟨w', hw', -, -, hbusy⟩ := happ.wal
      obtain rfl := Option.some.inj hw'
      have hbehind : w.syncedIndex < r.index := hbusy (by simp)
      cases synced with
      | false =>
        rw [call_error hw ((hthen _).mpr (sync_behind hbehind false))]
        exact ⟨_, .appendNoSync (hlast ▸ hlt), happ⟩
      | true =>
        rw [call_ok hw ((hthen _).mpr (sync_behind hbehind true))]
        have hflushed := happ.flushed rfl
        refine ⟨_, .append (hlast ▸ hlt), ?_⟩
        simpa [Ledger.records] using hflushed

/-! ### Rewrites and crashes -/

omit h in
theorem holds_rewritten {rs : List (WalRecord T)} (hrs : rs.Pairwise (·.index < ·.index))
    {w : Wal} (hw : w.syncedIndex = w.lastIndex) (hlast : ∀ r ∈ rs, r.index ≤ w.lastIndex) :
    WalMachine.Holds ⟨⟨linesOf rs, []⟩, some w⟩ ⟨rs, [], w.lastIndex⟩ := by
  have hrecords : Ledger.records ⟨rs, [], w.lastIndex⟩ = rs := List.append_nil _
  refine ⟨⟨w, rfl, rfl, fun _ => hw, fun hne => absurd rfl hne⟩, ⟨[], Torn.nil, ?_⟩, List.prefix_rfl, ?_, ?_⟩
  · rw [hrecords]; rfl
  · rw [hrecords]; exact hrs
  · rw [hrecords]; exact hlast

theorem Holds.rewrite {w : Wal} (keep : UInt64 → Bool) : ∃ n, rewrite keep ⟨w, m.file⟩ = .ok n
      ⟨{ w with syncedIndex := w.lastIndex, records := (l.records.filter (keep ·.index)).length },
        ⟨linesOf (l.records.filter (keep ·.index)), []⟩⟩ := by
  obtain ⟨t, ht, hbytes⟩ := h.bytes
  exact ⟨_, rewrite_linesOf h.ordered ht (s := ⟨w, m.file⟩) hbytes keep⟩

theorem Holds.step_compactThrough (through : UInt64) : m.Follows l (.compactThrough through) := by
  obtain ⟨w, hw, hlast, -⟩ := h.wal
  obtain ⟨n, hrewrite⟩ := h.rewrite (w := w) fun i => through < i
  simp only [Follows, exec, compactThrough]
  rw [call_ok hw hrewrite]
  refine ⟨_, .compactThrough through, ?_⟩
  rw [← hlast]
  refine holds_rewritten (h.ordered.filter _) rfl fun r hr => ?_
  exact hlast ▸ h.bounded r (List.mem_filter.mp hr).1

theorem Holds.step_truncateAfter (after : UInt64) : m.Follows l (.truncateAfter after) := by
  obtain ⟨w, hw, -⟩ := h.wal
  obtain ⟨n, hrewrite⟩ := h.rewrite (w := w) fun i => i ≤ after
  have htruncate : truncateAfter after ⟨w, m.file⟩ = .ok n ⟨⟨after, after, (l.records.filter (·.index ≤ after)).length⟩,
        ⟨linesOf (l.records.filter (·.index ≤ after)), []⟩⟩ := by
    simp only [truncateAfter, bind, EStateM.bind, hrewrite]
    rfl
  simp only [Follows, exec]
  rw [call_ok hw htruncate]
  refine ⟨_, .truncateAfter after, holds_rewritten (h.ordered.filter _) rfl fun r hr => ?_⟩
  simpa using (List.mem_filter.mp hr).2

theorem Holds.step_reset (floor : UInt64) : m.Follows l (.reset floor) := by
  obtain ⟨w, hw, -⟩ := h.wal
  obtain ⟨n, hrewrite⟩ := h.rewrite (w := w) fun _ => false
  have hreset : reset floor ⟨w, m.file⟩ = .ok () ⟨⟨floor, floor, 0⟩, ⟨[], []⟩⟩ := by
    have hnone : l.records.filter (fun _ => false) = [] := by simp
    rw [hnone] at hrewrite
    simp only [reset, bind, EStateM.bind, hrewrite]
    rfl
  simp only [Follows, exec]
  rw [call_ok hw hreset]
  have hnil : ([] : List (WalRecord T)).Pairwise (·.index < ·.index) := .nil
  exact ⟨_, .reset floor, holds_rewritten hnil (w := ⟨floor, floor, 0⟩) rfl (by simp)⟩

/-- What a clean crash leaves in the file: what was synced, the first few other records, and at most
a torn line. -/
theorem Holds.crash_bytes {kept : Nat} (hclean : m.Clean (.crash (T := T) kept)) :
    ∃ n cs, Torn T cs ∧
      (m.file.crash kept).bytes = linesOf (l.synced ++ l.unsynced.take n) ++ Text.utf8 cs := by
  obtain ⟨cs, hcs, hbytes⟩ := h.bytes
  obtain ⟨hwhole, hnext⟩ := hclean
  have htake : m.file.bytes.take (m.file.durable.length + kept) = (m.file.crash kept).bytes := by
    simp [File.bytes, File.crash, List.take_length_add_append]
  rw [htake] at hwhole
  obtain ⟨text, htext⟩ := Option.isSome_iff_exists.mp hwhole
  have hleft := Text.eq_utf8_of_ofUtf8 htext
  -- the text kept is a beginning of the whole text, and the synced one a beginning of it
  have hall : m.file.bytes = Text.utf8 (textOf l.records ++ cs) := by
    rw [hbytes, linesOf_eq, Text.utf8_append]
  obtain ⟨rest, hrest⟩ : text <+: textOf l.records ++ cs := by
    refine Text.isPrefix_of_utf8 ?_
    rw [← hleft, ← hall, ← htake]
    exact List.take_prefix ..
  obtain ⟨ds, hds⟩ : textOf l.synced <+: text := by
    refine Text.isPrefix_of_utf8 ?_
    rw [← hleft, ← linesOf_eq]
    exact h.durable.trans (List.prefix_append _ [] |>.trans (by simp [File.crash, File.bytes]))
  subst hds
  have hafter : m.file.bytes.drop (m.file.durable.length + kept) = Text.utf8 rest := by
    have hsplit := List.take_append_drop (m.file.durable.length + kept) m.file.bytes
    rw [htake, hleft] at hsplit
    refine List.append_cancel_left (hsplit.trans ?_)
    rw [hall, ← hrest, Text.utf8_append]
  have hfeed : rest.head? ≠ some '\n' := by
    intro hhead
    cases rest with
    | nil => cases hhead
    | cons c rest =>
      obtain rfl := Option.some.inj hhead
      rw [hafter] at hnext
      exact hnext rfl
  have hunsynced : ds ++ rest = textOf l.unsynced ++ cs := by
    have : textOf l.records = textOf l.synced ++ textOf l.unsynced := List.flatMap_append
    rw [this, List.append_assoc, List.append_assoc] at hrest
    exact List.append_cancel_left hrest
  obtain ⟨n, cs', hcs', rfl⟩ := exists_cut hcs hunsynced hfeed
  refine ⟨n, cs', hcs', ?_⟩
  rw [hleft, linesOf_append, linesOf_eq, linesOf_eq, ← List.append_assoc, Text.utf8_append, Text.utf8_append]

/-- After a clean crash the log opens with what was synced and the first few other records. -/
theorem Holds.step_crash {kept : Nat} (hclean : m.Clean (.crash (T := T) kept)) : m.Follows l (.crash kept) := by
  obtain ⟨n, cs, hcs, hleft⟩ := h.crash_bytes hclean
  have hordered : (l.synced ++ l.unsynced.take n).Pairwise (·.index < ·.index) :=
    h.ordered.sublist (List.Sublist.append_left (List.take_sublist ..) _)
  obtain ⟨w, hopen, hlast, hsynced⟩ := open_linesOf hordered hcs hleft
  have hfile : (if cs = [] then m.file.crash kept else ⟨linesOf (l.synced ++ l.unsynced.take n), []⟩) =
      ⟨linesOf (l.synced ++ l.unsynced.take n), []⟩ := by
    split
    · next hnil =>
      rw [hnil, Text.utf8, List.flatMap_nil, List.append_nil] at hleft
      rw [← hleft]
      simp [File.crash, File.bytes]
    · rfl
  rw [hfile] at hopen
  simp only [Follows, exec, hopen]
  refine ⟨l.crash n, .crash kept n, ?_⟩
  rw [Ledger.crash, ← hlast]
  refine holds_rewritten hordered (hsynced.trans hlast.symm) fun r hr => ?_
  rw [hlast]
  exact le_lastOf hordered hr

theorem Holds.step {e : WalEvent T} (hclean : m.Clean e) : m.Follows l e := by
  cases e with
  | append r written synced => exact h.step_append hclean
  | appendUnsynced r written => exact h.step_appendUnsynced hclean
  | sync synced => exact h.step_sync synced
  | truncateAfter after => exact h.step_truncateAfter after
  | compactThrough through => exact h.step_compactThrough through
  | reset floor => exact h.step_reset floor
  | crash kept => exact h.step_crash hclean

theorem Holds.run {es : List (WalEvent T)} (hclean : m.CleanRun es) :
    ∃ l', Ledger.Run l es (m.run es).2 l' ∧ (m.run es).1.Holds l' := by
  induction es generalizing m l with
  | nil => exact ⟨l, .nil, h⟩
  | cons e es ih =>
    obtain ⟨l', hstep, h'⟩ := h.step hclean.1
    obtain ⟨l'', hrun, h''⟩ := ih h' hclean.2
    exact ⟨l'', .cons hstep hrun, h''⟩

theorem Holds.replay : replay m.file.bytes = .ok l.records := by
  obtain ⟨t, ht, hbytes⟩ := h.bytes
  rw [hbytes]
  exact replay_linesOf h.ordered ht

end

end WalMachine

/-- Every run that leaves no unfinished line behind is a run of the ledger: the log opens after
every crash, and replay returns what the ledger retains, so every record that was synced. -/
theorem wal_recovers (es : List (WalEvent T)) (hclean : WalMachine.new.CleanRun es) :
    ∃ l, Ledger.Run Ledger.new es (WalMachine.new.run es).2 l ∧
      (WalMachine.new.run es).1.wal.isSome ∧
      Wal.replay (WalMachine.new.run es).1.file.bytes = .ok l.records := by
  obtain ⟨l, hrun, h⟩ := holds_new.run hclean
  obtain ⟨w, hw, -⟩ := h.wal
  exact ⟨l, hrun, by rw [hw]; rfl, h.replay⟩

end

/-! ## Unfinished lines -/

/-- Commands for the runs below, written as strings of one character. -/
inductive Letter where
  | a | b | eAcute
deriving DecidableEq

namespace Letter

def char : Letter → Char
  | a => 'a'
  | b => 'b'
  | eAcute => 'é'

def termKey : Text := ['{', '"', 't', 'e', 'r', 'm', '"', ':']

def indexKey : Text := [',', '"', 'i', 'n', 'd', 'e', 'x', '"', ':']

def commandKey : Text := [',', '"', 'c', 'o', 'm', 'm', 'a', 'n', 'd', '"', ':', '"']

/-- The JSON of a record without its last brace. -/
def body (r : WalRecord Letter) : Text :=
  termKey ++ (Nat.toDigits 10 r.term.toNat ++ (indexKey ++ (Nat.toDigits 10 r.index.toNat ++
    (commandKey ++ [r.command.char, '"']))))

/-- The number after a key, and what follows it. -/
def numberAfter (key cs : Text) : Option (UInt64 × Text) := do
  let cs ← key.isPrefixOf? cs
  some (.ofNat (Nat.ofDigitChars 10 (cs.takeWhile Char.isDigit) 0), cs.dropWhile Char.isDigit)

/-- The term, the index and what follows the key of the command, of a text with one brace at its end. -/
def read (cs : Text) : Option (UInt64 × UInt64 × Text) := do
  if '}' ∈ cs.dropLast ∨ cs.getLast? ≠ some '}' then none
  let (term, cs) ← numberAfter termKey cs
  let (index, cs) ← numberAfter indexKey cs
  some (term, index, ← commandKey.isPrefixOf? cs)

def ofRest (cs : Text) : Option Letter := [a, b, eAcute].find? fun l => cs = [l.char, '"', '}']

theorem numberAfter_append (key : Text) (n : UInt64) {c : Char} (hc : c.isDigit = false) (cs : Text) :
    numberAfter key (key ++ (Nat.toDigits 10 n.toNat ++ c :: cs)) = some (n, c :: cs) := by
  have hall : ∀ d ∈ Nat.toDigits 10 n.toNat, d.isDigit = true := fun d hd =>
    Nat.isDigit_of_mem_toDigits (by decide) (by decide) hd
  have hkey : key.isPrefixOf? (key ++ (Nat.toDigits 10 n.toNat ++ c :: cs)) = some _ :=
    List.isPrefixOf?_eq_some_iff_append_eq.mpr rfl
  simp [numberAfter, hkey, List.takeWhile_append_of_pos hall, List.dropWhile_append_of_pos hall, hc]

theorem notMem_body (r : WalRecord Letter) {c : Char} (hc : c.isDigit = false)
    (hkeys : c ∉ termKey ++ indexKey ++ commandKey ++ ['a', 'b', 'é']) : c ∉ body r := by
  have hdigits : ∀ n, c ∉ Nat.toDigits 10 n := fun n hmem => by
    rw [Nat.isDigit_of_mem_toDigits (by decide) (by decide) hmem] at hc
    cases hc
  have hchar : c ≠ r.command.char := by
    rintro rfl
    cases hcommand : r.command <;> simp [char, hcommand] at hkeys
  have hquote : c ≠ '"' := by
    rintro rfl
    exact hkeys (by decide)
  simp only [List.mem_append, not_or] at hkeys
  simp [body, hdigits, hkeys, hchar, hquote]

theorem read_body (r : WalRecord Letter) :
    read (body r ++ ['}']) = some (r.term, r.index, [r.command.char, '"', '}']) := by
  have hbrace := notMem_body r (c := '}') (by decide) (by decide)
  have hterm := numberAfter_append termKey r.term (c := ',') (by decide)
    (indexKey.tail ++ (Nat.toDigits 10 r.index.toNat ++ (commandKey ++ [r.command.char, '"', '}'])))
  have hindex := numberAfter_append indexKey r.index (c := ',') (by decide)
    (commandKey.tail ++ [r.command.char, '"', '}'])
  have hbody : body r ++ ['}'] = termKey ++ (Nat.toDigits 10 r.term.toNat ++
      ',' :: (indexKey.tail ++ (Nat.toDigits 10 r.index.toNat ++ (commandKey ++ [r.command.char, '"', '}'])))) := by
    simp [body, indexKey]
  have hlast : ¬ ('}' ∈ (body r ++ ['}']).dropLast ∨ (body r ++ ['}']).getLast? ≠ some '}') := by
    simpa using hbrace
  rw [read, if_neg hlast, hbody]
  simp only [Option.bind_eq_bind, Option.bind_some, hterm]
  exact congrArg (Option.bind · _) hindex

/-- A text cut short has lost the only brace that ends it. -/
theorem read_cut {r : WalRecord Letter} {cs : Text} (h : cs <+: body r ++ ['}'])
    (hne : cs ≠ body r ++ ['}']) : read cs = none := by
  have hcs : cs <+: body r := (List.prefix_concat_iff.mp h).resolve_left hne
  have hlast : cs.getLast? ≠ some '}' := fun hlast =>
    notMem_body r (by decide) (by decide) (hcs.subset (List.mem_of_getLast? hlast))
  rw [read, if_pos (.inr hlast)]
  rfl

end Letter

instance : IndexOnly where
  indexOnly cs := (Letter.read cs).map (·.2.1)

instance : Serde Letter where
  text r := Letter.body r ++ ['}']
  ofText cs := do
    let (term, index, cs) ← Letter.read cs
    some ⟨term, index, ← Letter.ofRest cs⟩
  text_braces r := ⟨_, rfl⟩
  lineFeed_notMem_text r := by
    have := Letter.notMem_body r (c := '\n') (by decide) (by decide)
    simpa using this
  ofText_text r := by
    rw [Letter.read_body]
    obtain ⟨term, index, command⟩ := r
    cases command <;> rfl
  indexOnly_text r := congrArg (Option.map _) (Letter.read_body r)
  indexOnly_cut hcs hne := congrArg (Option.map _) (Letter.read_cut hcs hne)

def record (index : UInt64) (command : Letter) : WalRecord Letter := ⟨1, index, command⟩

/-- A record is synced, the next one torn by a crash and appended again after it. -/
def tornAndRepeated : List (WalEvent Letter) :=
  [.append (record 1 .a) .all true, .appendUnsynced (record 2 .eAcute) .all, .crash 10,
    .append (record 2 .eAcute) .all true, .crash 0]

theorem wal_recovers_torn : WalMachine.new.CleanRun tornAndRepeated ∧
    ∃ l, Ledger.Run Ledger.new tornAndRepeated (WalMachine.new.run tornAndRepeated).2 l ∧
      (WalMachine.new.run tornAndRepeated).1.wal.isSome ∧
      Wal.replay (WalMachine.new.run tornAndRepeated).1.file.bytes = .ok l.records :=
  have hclean : WalMachine.new.CleanRun tornAndRepeated := by decide +kernel
  ⟨hclean, wal_recovers tornAndRepeated hclean⟩

/-- A crash cuts the line of a record inside a character. -/
def cutCharacter : List (WalEvent Letter) :=
  [.appendUnsynced (record 1 .eAcute) .all, .crash 32]

/-- A crash cuts the line of a record just before its line feed; another record is appended. -/
def cutLineFeed : List (WalEvent Letter) :=
  [.appendUnsynced (record 1 .a) .all, .crash 34, .append (record 2 .b) .all true,
    .crash 0]

/-- An append fails halfway, and is tried again. -/
def failedAppend : List (WalEvent Letter) :=
  [.append (record 1 .a) (.failed 5) true, .append (record 1 .a) .all true, .crash 0]

/-- In the first of these runs the log does not open again; in the others a record that was appended
and synced continues an unfinished line and is lost with it. -/
theorem unfinished_lines_lose_records :
    (WalMachine.new.run cutCharacter).1.wal = none ∧
    (WalMachine.new.run cutLineFeed).2 = [true, true, true, true] ∧
    Wal.replay (T := Letter) (WalMachine.new.run cutLineFeed).1.file.bytes = .ok [] ∧
    (WalMachine.new.run failedAppend).2 = [false, true, true] ∧
    Wal.replay (T := Letter) (WalMachine.new.run failedAppend).1.file.bytes = .ok [] := by
  decide +kernel

end AtlasNative.WalFile
