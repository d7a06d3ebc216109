import Lexis.Command.Flags
import Lexis.Proofs.Report.Faithful
import Lexis.Proofs.Scan.Blanks

/-!
# What a run shows of a report

A run in plain text writes lines of the report of its whole scan. The settings choose among the
lines of tokens, by their kinds; the lines of diagnostics are always there. Whether blanks are
scanned as tokens does not matter if they are not shown. If something is wrong with the settings or
with the source, nothing is written. All this holds for any reader of flags, any decoder of settings
files, any environment and whatever is dumped: nothing is assumed of them but what they return.

* `lines_shown`: the filters of a run, as a filter on the report of its scan.
* `kept_emitting`: a filter that leaves out trivia does not see the blanks of a scan.
* `of_plan_eq_ok`: what must be right before anything is scanned.
* `run_of_prints`, `run_of_fails`: a run, and a run that ends before the scan.
-/
namespace Lexis

open Command

/-! ## Lines that are kept -/

/-- Whether the line of an entry is shown: trivia can be left out, and kinds can be asked for. -/
def Settings.keeps (s : Settings) (e : Entry) : Bool :=
  (!(Kind.ofName? e.kind).any Kind.isTrivia || !s.skipTrivia) &&
    (s.only.contains e.kind || s.only = [])

/-- The lines of a report that are shown. -/
def Report.kept (r : Report) (s : Settings) : List Bytes :=
  (r.entries.filter s.keeps).map Entry.textLine ++ r.notes.map (Note.textLine r.path)

/-- All that is asked for is known. -/
def Settings.KindsKnown (s : Settings) : Prop := ∀ name ∈ s.only, (Kind.ofName? name).isSome

/-- The kinds that are asked for, if they are known. -/
def Settings.kinds (s : Settings) : List Kind :=
  s.only.map fun name => (Kind.ofName? name).getD .unknown

section Kinds

variable {s : Settings}

theorem onlyKinds_eq (h : s.KindsKnown) : s.onlyKinds = .ok s.kinds := by
  refine mapM_eq_map fun name hname => ?_
  obtain ⟨k, hk⟩ := Option.isSome_iff_exists.1 (h name hname)
  rw [Kind.parse, hk]
  rfl

theorem name_of_ofName? {name : Bytes} {k : Kind} (h : Kind.ofName? name = some k) :
    k.name = name := by
  simpa using List.find?_some h

theorem mem_kinds_iff (h : s.KindsKnown) {k : Kind} (hk : Kind.ofName? k.name = some k) :
    k ∈ s.kinds ↔ k.name ∈ s.only := by
  constructor
  · intro hmem
    obtain ⟨name, hname, rfl⟩ := List.mem_map.1 hmem
    obtain ⟨k, hk⟩ := Option.isSome_iff_exists.1 (h name hname)
    rw [hk, Option.getD_some, name_of_ofName? hk]
    exact hname
  · intro hmem
    exact List.mem_map.2 ⟨k.name, hmem, by rw [hk, Option.getD_some]⟩

theorem mapM_eq_error {α β ε : Type} {f : α → Except ε β} {l : List α} {a : α} {e : ε}
    (ha : a ∈ l) (h : f a = .error e) : ∃ e', l.mapM f = .error e' := by
  induction l with
  | nil => cases ha
  | cons b l ih =>
    rw [List.mapM_cons]
    cases hb : f b with
    | error e' => exact ⟨e', rfl⟩
    | ok y =>
      have htail : a ∈ l := by
        refine (List.mem_cons.1 ha).resolve_left ?_
        rintro rfl
        rw [hb] at h
        cases h
      obtain ⟨e', he'⟩ := ih htail
      exact ⟨e', by rw [he']; rfl⟩

theorem onlyKinds_eq_error {name : Bytes} (hname : name ∈ s.only) (h : Kind.ofName? name = none) :
    ∃ e, s.onlyKinds = .error e := by
  refine mapM_eq_error hname (e := ⟨name⟩) ?_
  rw [Kind.parse, h]
  rfl

end Kinds

/-! ## Filters -/

section Kept

variable {s : Settings} {source : Bytes} {o : Options} {t : Token}

theorem shown_eq_filter (skipTrivia : Bool) (only : List Kind) (ts : List Token) :
    shown skipTrivia only ts = ts.filter fun t =>
      (!t.kind.isTrivia || !skipTrivia) && (only.contains t.kind || only = []) := by
  unfold shown Stream.significant
  cases skipTrivia <;> by_cases h : only = [] <;> simp [h, Bool.and_comm]

theorem kind_entryIn (source : Bytes) (t : Token) : (t.entryIn source).kind = t.kind.name := by
  unfold Token.entryIn
  split <;> rfl

theorem keeps_entryIn (hs : s.KindsKnown) (ht : Kind.ofName? t.kind.name = some t.kind) :
    s.keeps (t.entryIn source) = ((!t.kind.isTrivia || !s.skipTrivia) &&
      (s.kinds.contains t.kind || s.kinds = [])) := by
  have hempty : s.kinds = [] ↔ s.only = [] := List.map_eq_nil_iff
  simp [Settings.keeps, kind_entryIn, ht, mem_kinds_iff hs ht, hempty]

/-- The report of the tokens that are shown has the lines that are kept of the report of all. -/
theorem lines_shown (hs : s.KindsKnown) (path : Bytes) (gs : List Diagnostic) :
    (reportOf path source (shown s.skipTrivia s.kinds (tokenize source o).1) gs).lines =
      (reportOf path source (tokenize source o).1 gs).kept s := by
  have hfilter : shown s.skipTrivia s.kinds (tokenize source o).1 =
      (tokenize source o).1.filter (s.keeps ∘ (·.entryIn source)) := by
    rw [shown_eq_filter]
    refine List.filter_congr fun t ht => ?_
    exact (keeps_entryIn hs (Piece.ofName?_kindName _ (known_of_mem_tokenize ht))).symm
  rw [hfilter]
  simp only [Report.kept, Report.lines, reportOf, List.filter_map]

/-! ## Blanks -/

/-- The report of all tokens of a scan. -/
def wholeReport (path source : Bytes) (o : Options) : Report :=
  reportOf path source (tokenize source o).1 (tokenize source o).2

theorem keeps_whitespace (hs : s.skipTrivia) (ht : t.kind = .whitespace) :
    s.keeps (t.entryIn source) = false := by
  have hname : (Kind.ofName? Kind.whitespace.name).any Kind.isTrivia = true := by decide
  simp [Settings.keeps, kind_entryIn, ht, hs, hname]

theorem kept_emitting (hs : s.skipTrivia) (path source : Bytes) (o : Options) :
    (wholeReport path source o.emitting).kept s = (wholeReport path source o.skipping).kept s := by
  have h := thins_steps o (Cursor.start source)
  -- No blank is kept, so they may as well be left out before.
  have hdrop : ((tokenize source o.emitting).1.map (·.entryIn source)).filter s.keeps =
      (((tokenize source o.emitting).1.filter (·.kind ≠ .whitespace)).map
        (·.entryIn source)).filter s.keeps := by
    rw [List.filter_map, List.filter_map, List.filter_filter]
    congr 1
    refine List.filter_congr fun t _ => ?_
    by_cases ht : t.kind = .whitespace
    · simp [ht, keeps_whitespace hs ht]
    · simp [ht]
  have htokens : (tokenize source o.emitting).1.filter (·.kind ≠ .whitespace) =
      (tokenize source o.skipping).1 := h.filter_eq
  have hdiagnostics : (tokenize source o.emitting).2 = (tokenize source o.skipping).2 :=
    h.flatMap_diagnostics.symm
  simp only [wholeReport, reportOf, Report.kept, hdrop, htokens, hdiagnostics]

theorem kept_whitespace (hs : s.skipTrivia) (path source : Bytes) (o : Options) (w w' : Bool) :
    (wholeReport path source { o with emitWhitespace := w }).kept s =
      (wholeReport path source { o with emitWhitespace := w' }).kept s := by
  have h := kept_emitting hs path source o
  cases w <;> cases w'
  · rfl
  · exact h.symm
  · exact h
  · rfl

/-- Settings under which a scan gives the same lines, but for blanks that are not shown. -/
structure Settings.ShowsAlike (s s' : Settings) : Prop where
  identDigits : s'.identDigits = s.identDigits
  colonPercent : s'.colonPercent = s.colonPercent
  whitespace : s'.whitespace = s.whitespace ∨ s'.skipTrivia

theorem Settings.ShowsAlike.kept_eq {s s' : Settings} (h : s.ShowsAlike s') (path source : Bytes) :
    (wholeReport path source s'.options).kept s' = (wholeReport path source s.options).kept s' := by
  have hoptions : s'.options = { s.options with emitWhitespace := s'.whitespace } := by
    simp [Settings.options, h.identDigits, h.colonPercent]
  rw [hoptions]
  rcases h.whitespace with hw | hs
  · rw [hw]
    rfl
  · exact kept_whitespace hs path source s.options s'.whitespace s.whitespace

end Kept

namespace Command

/-! ## Runs -/

/-- The command line is read, it asks for `a`, and no word of it is left over. -/
structure Asks (out : Outside) (words : List Bytes) (a : Arguments) : Prop where
  read : (out.readFlags words).result = .ok a
  extra : a.extra = []

/-- The settings say to print known kinds in plain text, and the file holds a valid text. -/
structure Arguments.Prints (out : Outside) (a : Arguments) (cfg : Settings) (text : Bytes) :
    Prop where
  settings : a.settings out = .ok cfg
  format : Format.ofName? cfg.format = some .text
  only : cfg.KindsKnown
  content : out.load (a.file.getD []) = .ok text
  valid : Utf8.valid text

/-- What can be wrong before anything is scanned. -/
inductive Arguments.Fails (out : Outside) (a : Arguments) : Prop where
  | settings {e : Settings.Error} : a.settings out = .error e → a.Fails out
  | format {cfg : Settings} : a.settings out = .ok cfg → Format.ofName? cfg.format = none →
      a.Fails out
  | only {cfg : Settings} {name : Bytes} : a.settings out = .ok cfg → name ∈ cfg.only →
      Kind.ofName? name = none → a.Fails out
  | content {e : LoadError} : out.load (a.file.getD []) = .error e → a.Fails out
  | encoding {text : Bytes} : out.load (a.file.getD []) = .ok text → Utf8.valid text = false →
      a.Fails out

/-- A run writes these lines to any sink that never fails, and succeeds. -/
def Shows (out : Outside) (words : List Bytes) (lines : List Bytes) : Prop :=
  ∀ sink : Sink, sink.room = none →
    (run out sink words).status = 0 ∧ (run out sink words).report = lines.flatten

section Runs

variable {out : Outside} {words : List Bytes} {a : Arguments} {cfg : Settings} {text : Bytes}

theorem Arguments.Prints.plan_eq (h : a.Prints out cfg text) :
    a.plan out = .ok ⟨cfg, .text, cfg.kinds, ⟨a.file.getD [], text⟩⟩ := by
  have hsource : Source.read (a.file.getD []) (out.load (a.file.getD [])) =
      .ok ⟨a.file.getD [], text⟩ := by
    rw [h.content, Source.read]
    exact if_pos h.valid
  simp [Arguments.plan, h.settings, h.format, onlyKinds_eq h.only, hsource, Except.mapError, bind,
    Except.bind, pure, Except.pure]

theorem exists_of_bind_eq_ok {α β ε : Type} {x : Except ε α} {f : α → Except ε β} {y : β}
    (h : (x >>= f) = .ok y) : ∃ v, x = .ok v ∧ f v = .ok y := by
  cases x with
  | error e => cases h
  | ok v => exact ⟨v, rfl, h⟩

theorem of_mapError_eq_ok {α ε ε' : Type} {x : Except ε α} {f : ε → ε'} {v : α}
    (h : x.mapError f = .ok v) : x = .ok v := by
  cases x with
  | error e => cases h
  | ok w =>
    cases h
    rfl

/-- A plan is there only if nothing is wrong. -/
theorem of_plan_eq_ok {p : Plan} (h : a.plan out = .ok p) :
    a.settings out = .ok p.settings ∧ Format.ofName? p.settings.format = some p.format ∧
      p.settings.onlyKinds = .ok p.only ∧
      Source.read (a.file.getD []) (out.load (a.file.getD [])) = .ok p.source := by
  obtain ⟨cfg, hcfg, h⟩ := exists_of_bind_eq_ok h
  dsimp only at h
  split at h
  · next format hformat =>
    obtain ⟨_, ⟨⟩, h⟩ := exists_of_bind_eq_ok h
    obtain ⟨kinds, hkinds, h⟩ := exists_of_bind_eq_ok h
    obtain ⟨source, hsource, h⟩ := exists_of_bind_eq_ok h
    cases h
    exact ⟨of_mapError_eq_ok hcfg, hformat, of_mapError_eq_ok hkinds, of_mapError_eq_ok hsource⟩
  · cases h

theorem Arguments.Fails.plan_eq (h : a.Fails out) : ∃ e, a.plan out = .error e := by
  cases hplan : a.plan out with
  | error e => exact ⟨e, rfl⟩
  | ok p =>
    exfalso
    obtain ⟨hsettings, hformat, honly, hsource⟩ := of_plan_eq_ok hplan
    cases h with
    | settings h =>
      rw [hsettings] at h
      cases h
    | format h hname =>
      rw [hsettings] at h
      cases h
      rw [hformat] at hname
      cases hname
    | only h hmem hname =>
      rw [hsettings] at h
      cases h
      obtain ⟨e, he⟩ := onlyKinds_eq_error hmem hname
      rw [honly] at he
      cases he
    | content h =>
      rw [h] at hsource
      cases hsource
    | encoding h hvalid =>
      rw [h, Source.read, hvalid] at hsource
      cases hsource

theorem asks_plain (h : Arguments.read words = .ok a) (hextra : a.extra = [])
    (load : Bytes → Except LoadError Bytes) : Asks (.plain load) words a := by
  refine ⟨?_, hextra⟩
  show (readFlags words).result = .ok a
  rw [readFlags, h]

/-- What the reader of flags says apart, a run is that of what is asked for. -/
theorem Asks.run_eq (h : Asks out words a) (sink : Sink) :
    (run out sink words).status = (a.run out sink).status ∧
      (run out sink words).report = (a.run out sink).report := by
  unfold run
  dsimp only
  rw [h.read]
  exact ⟨rfl, rfl⟩

theorem run_of_prints (hask : Asks out words a) (h : a.Prints out cfg text) :
    Shows out words ((wholeReport (a.file.getD []) text cfg.options).kept cfg) := by
  intro sink hroom
  have hprint := print_text (reportOf (a.file.getD []) text
    (shown cfg.skipTrivia cfg.kinds (tokenize text cfg.options).1) (tokenize text cfg.options).2)
    hroom
  rw [lines_shown h.only] at hprint
  have hrun : (a.run out sink).status = 0 ∧ (a.run out sink).report =
      ((wholeReport (a.file.getD []) text cfg.options).kept cfg).flatten := by
    rw [Arguments.run, if_neg (not_not.2 hask.extra), h.plan_eq]
    dsimp only [Plan.execute]
    rw [build_shown]
    dsimp only
    rw [hprint]
    exact ⟨rfl, rfl⟩
  rw [(hask.run_eq sink).1, (hask.run_eq sink).2]
  exact hrun

theorem run_of_fails (hask : Asks out words a) (h : a.Fails out) (sink : Sink) :
    (run out sink words).status = 1 ∧ (run out sink words).report = [] := by
  obtain ⟨e, he⟩ := h.plan_eq
  rw [(hask.run_eq sink).1, (hask.run_eq sink).2, Arguments.run, if_neg (not_not.2 hask.extra), he]
  exact ⟨rfl, rfl⟩

/-! ## More flags -/

/-- The settings of a file, with which the command line can say other things. -/
theorem exists_override (h : a.settings out = .ok cfg) : ∃ s, cfg = a.override s ∧
    ∀ a' : Arguments, a'.config = a.config → a'.settings out = .ok (a'.override s) := by
  unfold Arguments.settings at h ⊢
  split at h
  · next hconfig =>
    cases h
    exact ⟨{}, rfl, fun a' ha' => if_pos (ha'.trans hconfig)⟩
  · next hconfig =>
    cases hfile : Settings.read out.decoder (out.load a.config) with
    | error e =>
      rw [hfile] at h
      cases h
    | ok s =>
      rw [hfile] at h
      cases h
      refine ⟨s, rfl, fun a' ha' => ?_⟩
      rw [ha', if_neg hconfig, hfile]
      rfl

theorem Arguments.Prints.skipTrivia (h : a.Prints out cfg text) :
    { a with skipTrivia := true }.Prints out { cfg with skipTrivia := true } text := by
  obtain ⟨s, rfl, hsettings⟩ := exists_override h.settings
  refine ⟨(hsettings { a with skipTrivia := true } rfl).trans ?_, h.format, h.only, h.content,
    h.valid⟩
  simp [Arguments.override]

theorem Arguments.Prints.replaceOnly (h : a.Prints out cfg text) {names : List Bytes}
    (hne : names ≠ []) (hnames : ∀ name ∈ names, (Kind.ofName? name).isSome) :
    { a with only := names }.Prints out { cfg with only := names } text := by
  obtain ⟨s, rfl, hsettings⟩ := exists_override h.settings
  refine ⟨(hsettings { a with only := names } rfl).trans ?_, h.format, hnames, h.content, h.valid⟩
  simp [Arguments.override, hne]

/-- In plain text, a run writes the lines of the report of its whole scan, without the lines of
tokens that its settings leave out. So does every other run on the same text that scans it alike,
and so does a command line that asks for the same and one more filter; whether blanks are scanned
does not matter if trivia is left out. A run that cannot be carried out writes nothing. -/
theorem run_text (hask : Asks out words a) :
    (∀ cfg text, a.Prints out cfg text → ∃ report,
      Report.build (a.file.getD []) text (tokenize text cfg.options).1
        (tokenize text cfg.options).2 = .ok report ∧
      Shows out words (report.kept cfg) ∧
      (∀ out' words' a' cfg', Asks out' words' a' → a'.Prints out' cfg' text → a'.file = a.file →
        cfg.ShowsAlike cfg' → Shows out' words' (report.kept cfg')) ∧
      (∀ words', Asks out words' { a with skipTrivia := true } →
        Shows out words' (report.kept { cfg with skipTrivia := true })) ∧
      (∀ words' names, names ≠ [] → (∀ name ∈ names, (Kind.ofName? name).isSome) →
        Asks out words' { a with only := names } →
        Shows out words' (report.kept { cfg with only := names })) ∧
      (cfg.skipTrivia → ∀ out' words' a' w, Asks out' words' a' →
        a'.Prints out' { cfg with whitespace := w } text → a'.file = a.file →
        Shows out' words' (report.kept cfg))) ∧
    (a.Fails out → ∀ sink,
      (run out sink words).status = 1 ∧ (run out sink words).report = []) := by
  refine ⟨?_, fun hfails sink => run_of_fails hask hfails sink⟩
  intro cfg text h
  have hother : ∀ out' words' a' cfg', Asks out' words' a' → a'.Prints out' cfg' text →
      a'.file = a.file → cfg.ShowsAlike cfg' →
      Shows out' words' ((wholeReport (a.file.getD []) text cfg.options).kept cfg') := by
    intro out' words' a' cfg' hask' h' hfile halike
    rw [← halike.kept_eq, ← hfile]
    exact run_of_prints hask' h'
  refine ⟨_, build_tokenize _ text cfg.options _, run_of_prints hask h, hother, ?_, ?_, ?_⟩
  · intro words' hask'
    exact hother _ _ _ _ hask' h.skipTrivia rfl ⟨rfl, rfl, .inl rfl⟩
  · intro words' names hne hnames hask'
    exact hother _ _ _ _ hask' (h.replaceOnly hne hnames) rfl ⟨rfl, rfl, .inl rfl⟩
  · intro hs out' words' a' w hask' h' hfile
    exact hother _ _ _ { cfg with whitespace := w } hask' h' hfile ⟨rfl, rfl, .inr hs⟩

/-- A name and a comment that is not closed, with all lines, without trivia and with names alone, on
a command line that also asks for dumps; another file is not there. -/
theorem run_text_comment :
    let text := ascii "x /*"
    let out := Outside.plain (FileTree.ofPaths [(ascii "a.c", text)]).load
    (∃ report, Report.build (ascii "a.c") text (tokenize text {}).1 (tokenize text {}).2 =
        .ok report ∧
      Shows out [ascii "--debug", ascii "a.c"] (report.kept {}) ∧
      Shows out [ascii "--debug", ascii "a.c", ascii "--skip-trivia"]
        (report.kept { skipTrivia := true }) ∧
      Shows out [ascii "--only=Ident", ascii "--debug", ascii "a.c"]
        (report.kept { only := [ascii "Ident"] })) ∧
    (run out .unlimited [ascii "b.c"]).status = 1 ∧
      (run out .unlimited [ascii "b.c"]).report = [] := by
  intro text out
  have hask : Asks out [ascii "--debug", ascii "a.c"]
      { debug := true, file := some (ascii "a.c") } := asks_plain (by decide) rfl _
  have hmissing : Asks out [ascii "b.c"] { file := some (ascii "b.c") } :=
    asks_plain (by decide) rfl _
  have hprints : Arguments.Prints out { debug := true, file := some (ascii "a.c") } {} text :=
    ⟨rfl, by decide, by simp [Settings.KindsKnown], by decide, by decide⟩
  have hfails : Arguments.Fails out { file := some (ascii "b.c") } :=
    .content (e := .cannotOpen (ascii "b.c") .notFound) (by decide)
  obtain ⟨report, hbuild, hall, -, hskip, honly, -⟩ := (run_text hask).1 _ _ hprints
  refine ⟨⟨report, hbuild, hall, hskip _ (asks_plain (by decide) rfl _), ?_⟩,
    (run_text hmissing).2 hfails _⟩
  exact honly _ _ (by simp) (by decide) (asks_plain (by decide +kernel) rfl _)

end Runs

end Command

end Lexis
