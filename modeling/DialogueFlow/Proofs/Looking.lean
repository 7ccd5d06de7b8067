import DialogueFlow.Command.Run
import DialogueFlow.Proofs.Analysis

namespace DialogueFlow

namespace FileTree

theorem has_of_read {t : FileTree} {p : Path} {content : List UInt8}
    (h : t.read p = .ok content) : t.has p = .ok true := by
  rw [read] at h
  split at h
  · next hl => simp [has, hl]
  all_goals contradiction

def Holds (t : FileTree) (path : Path) (text : List Char) : Prop :=
  ∃ content raw, t.read path = .ok content ∧ Text.decodeUtf8 content = .ok raw ∧
    text = Text.unifyLines raw

end FileTree

namespace Command

section Rules

variable {α β ε : Type} {m : Run α} {P Q : FileTree → α → Prop}

/-- Only the log may have changed. -/
def Session.Untouched (s s' : Session) : Prop := s'.files = s.files ∧ s'.out = s.out

/-- `m` only looks, and finds the one value that `P` describes. If there is no such value, it says
that the run is unusable, or breaks off. -/
structure Finds (m : Run α) (P : FileTree → α → Prop) : Prop where
  ok : ∀ {s a s'}, m s = .ok a s' → s.Untouched s' ∧ ∀ b, P s.files b ↔ b = a
  error : ∀ {s halt s'}, m s = .error halt s' → s.Untouched s' ∧
    (∀ code, halt = .quit code → code = exitUnusable) ∧ ∀ b, ¬ P s.files b

theorem Finds.congr (h : Finds m P) (hpq : ∀ files a, P files a ↔ Q files a) : Finds m Q := by
  have hP : P = Q := by
    ext files a
    exact hpq files a
  exact hP ▸ h

theorem Finds.eq_ok (h : Finds m P) {s : Session} {a : α} (ha : P s.files a) :
    ∃ s', m s = .ok a s' ∧ s.Untouched s' := by
  cases hs : m s with
  | ok b s' =>
    obtain ⟨hsame, hunique⟩ := h.ok hs
    rw [(hunique a).mp ha]
    exact ⟨s', rfl, hsame⟩
  | error halt s' => exact absurd ha ((h.error hs).2.2 a)

theorem Finds.unique (h : Finds m P) {files : FileTree} {a b : α} (ha : P files a)
    (hb : P files b) : a = b := by
  obtain ⟨s', hs, -⟩ := h.eq_ok (s := ⟨files, "", ""⟩) ha
  exact (((h.ok hs).2 b).mp hb).symm

theorem bind_of_eq_ok {f : α → Run β} {s s' : Session} {a : α} (h : m s = .ok a s') :
    (m >>= f) s = f a s' := by
  simp only [bind, EStateM.bind, h]

theorem bind_of_eq_error {f : α → Run β} {s s' : Session} {halt : Halt} (h : m s = .error halt s') :
    (m >>= f) s = .error halt s' := by
  simp only [bind, EStateM.bind, h]

theorem bind_eq_ok {f : α → Run β} {s s' : Session} {b : β} (h : (m >>= f) s = .ok b s') :
    ∃ a s₁, m s = .ok a s₁ ∧ f a s₁ = .ok b s' := by
  cases hs : m s with
  | error halt s₁ =>
    rw [bind_of_eq_error hs] at h
    contradiction
  | ok a s₁ =>
    rw [bind_of_eq_ok hs] at h
    exact ⟨a, s₁, rfl, h⟩

theorem bind_eq_error {f : α → Run β} {s s' : Session} {halt : Halt}
    (h : (m >>= f) s = .error halt s') :
    m s = .error halt s' ∨ ∃ a s₁, m s = .ok a s₁ ∧ f a s₁ = .error halt s' := by
  cases hs : m s with
  | error halt₁ s₁ =>
    rw [bind_of_eq_error hs] at h
    cases h
    exact .inl rfl
  | ok a s₁ =>
    rw [bind_of_eq_ok hs] at h
    exact .inr ⟨a, s₁, rfl, h⟩

theorem Session.Untouched.trans {s s₁ s₂ : Session} (h : s.Untouched s₁) (h' : s₁.Untouched s₂) :
    s.Untouched s₂ :=
  ⟨h'.1.trans h.1, h'.2.trans h.2⟩

theorem Finds.bind {f : α → Run β} {R : α → FileTree → β → Prop} (hm : Finds m P)
    (hf : ∀ a, Finds (f a) (R a)) :
    Finds (m >>= f) (fun files b => ∃ a, P files a ∧ R a files b) := by
  constructor
  case ok =>
    intro s b s' h
    obtain ⟨a, s₁, hs, h⟩ := bind_eq_ok h
    obtain ⟨hsame, ha⟩ := hm.ok hs
    obtain ⟨hsame', hb⟩ := (hf a).ok h
    refine ⟨hsame.trans hsame', fun b' => ?_⟩
    simp only [ha, exists_eq_left]
    exact hsame.1 ▸ hb b'
  case error =>
    intro s halt s' h
    obtain hs | ⟨a, s₁, hs, h⟩ := bind_eq_error h
    · obtain ⟨hsame, hquit, hnone⟩ := hm.error hs
      exact ⟨hsame, hquit, fun b ⟨a, ha, _⟩ => hnone a ha⟩
    · obtain ⟨hsame, ha⟩ := hm.ok hs
      obtain ⟨hsame', hquit, hnone⟩ := (hf a).error h
      refine ⟨hsame.trans hsame', hquit, fun b => ?_⟩
      simp only [ha, exists_eq_left]
      exact hsame.1 ▸ hnone b

theorem Finds.andThen {m : Run Unit} {k : Run α} (hm : Finds m (fun _ _ => True))
    (hk : Finds k P) : Finds (m >>= fun _ => k) P :=
  (hm.bind (fun _ => hk)).congr (by simp)

theorem finds_get {f : Session → Run α} (hf : ∀ s, Finds (f s) (fun _ => P s.files)) :
    Finds (get >>= f) P where
  ok h := (hf _).ok h
  error h := (hf _).error h

theorem finds_pure (a : α) : Finds (pure a) (fun _ b => b = a) where
  ok h := by
    cases h
    exact ⟨⟨rfl, rfl⟩, fun _ => Iff.rfl⟩
  error h := by cases h

theorem finds_quit : Finds (throw (.quit exitUnusable) : Run α) (fun _ _ => False) where
  ok h := by cases h
  error h := by
    cases h
    exact ⟨⟨rfl, rfl⟩, fun _ hcode => (Halt.quit.inj hcode).symm, fun _ => id⟩

theorem finds_broken (f : Failure) : Finds (throw (.broken f) : Run α) (fun _ _ => False) where
  ok h := by cases h
  error h := by
    cases h
    exact ⟨⟨rfl, rfl⟩, (fun _ hcode => nomatch hcode), fun _ => id⟩

theorem finds_orBreak (wrap : ε → Failure) (x : Except ε α) :
    Finds (orBreak wrap x) (fun _ a => x = .ok a) := by
  cases x with
  | error e => exact (finds_broken (wrap e)).congr (by simp)
  | ok a => exact (finds_pure a).congr (by simp [eq_comm])

theorem finds_printError (text : String) : Finds (printError text) (fun _ _ => True) where
  ok h := by
    cases h
    exact ⟨⟨rfl, rfl⟩, by simp⟩
  error h := by cases h

theorem finds_log (c : Context) (e : Log.Entry) : Finds (log c e) (fun _ _ => True) := by
  rw [log]
  split
  · exact finds_printError _
  · exact (finds_pure ()).congr (by simp)

theorem finds_forM {f : α → Run PUnit} (hf : ∀ a, Finds (f a) (fun _ _ => True)) (l : List α) :
    Finds (l.forM f) (fun _ _ => True) := by
  induction l with
  | nil => exact (finds_pure ()).congr (by simp)
  | cons a l ih => exact (hf a).andThen ih

theorem finds_complaint (c : Context) (message : String) :
    Finds (logError c message >>= fun _ => throw (.quit exitUnusable) : Run α)
      (fun _ _ => False) :=
  (finds_log c _).andThen finds_quit

end Rules

/-- The file to which the written path `raw` leads holds `text`. -/
def Environment.Reads (e : Environment) (files : FileTree) (raw : String)
    (text : List Char) : Prop :=
  ∃ path, Path.resolve e.folder e.homes raw = .ok path ∧ files.Holds path text

theorem Environment.Reads.eq {e : Environment} {files : FileTree} {raw : String}
    {text text' : List Char} (h : e.Reads files raw text) (h' : e.Reads files raw text') :
    text = text' := by
  obtain ⟨path, hpath, content, decoded, hread, hdecoded, rfl⟩ := h
  obtain ⟨_, hpath', _, _, hread', hdecoded', rfl⟩ := h'
  cases hpath.symm.trans hpath'
  cases hread.symm.trans hread'
  cases hdecoded.symm.trans hdecoded'
  rfl

def Environment.Loads (e : Environment) (files : FileTree) (raw : String) (p : Program) : Prop :=
  ∃ text, e.Reads files raw text ∧ Program.ofText e.dialect text = .ok p

theorem Environment.Loads.eq {e : Environment} {files : FileTree} {raw : String} {p p' : Program}
    (h : e.Loads files raw p) (h' : e.Loads files raw p') : p = p' := by
  obtain ⟨text, htext, hp⟩ := h
  obtain ⟨_, htext', hp'⟩ := h'
  cases htext.eq htext'
  exact Except.ok.inj (hp.symm.trans hp')

/-- The string table in a file. Without the name of a file it is empty. -/
inductive Environment.LoadsStrings (e : Environment) (files : FileTree) :
    Option String → StringTable → Prop where
  | absent : LoadsStrings e files none .empty
  | unnamed : LoadsStrings e files (some "") .empty
  | file {raw : String} {text : List Char} {document : Json} (hraw : raw ≠ "")
      (hread : e.Reads files raw text) (hdocument : Json.read e.dialect text = .ok document) :
      LoadsStrings e files (some raw) ⟨document⟩

inductive Selects (a : Analysis) : Option Value → List Vertex → Prop where
  | all : Selects a none a.vertices
  | one {name : String} {flow : Flow} (h : a.flows.get? name = some flow) :
      Selects a (some (.text name)) flow.vertices

variable (c : Context)

theorem finds_resolveExisting (raw what : String) :
    Finds (resolveExisting c raw what) (fun files path =>
      Path.resolve c.environment.folder c.environment.homes raw = .ok path ∧
        files.has path = .ok true) := by
  have hpresent : ∀ (path : Path) (present : Bool),
      Finds (if present then pure path else do
        logError c s!"{what} not found: {path.text}"
        throw (.quit exitUnusable)) (fun _ found => present = true ∧ found = path) := by
    intro path present
    cases present with
    | false => exact (finds_complaint c _).congr (by simp)
    | true => exact (finds_pure path).congr (by simp)
  have hlook : ∀ path : Path, Finds (get >>= fun s => orBreak .file (s.files.has path) >>= _)
      (fun files found => files.has path = .ok true ∧ found = path) := fun path =>
    finds_get (fun s => ((finds_orBreak _ _).bind (hpresent path)).congr (by simp))
  exact ((finds_orBreak _ _).bind hlook).congr (by simp [and_comm])

theorem finds_readText (path : Path) :
    Finds (readText path) (fun files text => ∃ content, files.read path = .ok content ∧
      text = (Text.decodeUtf8 content).map Text.unifyLines) :=
  finds_get (fun _ => (finds_orBreak _ _).bind (fun _ => finds_pure _))

theorem finds_readText_bind {α : Type} {path : Path} {f : Except Text.Utf8Fault (List Char) → Run α}
    {R : List Char → α → Prop} (herror : ∀ fault, Finds (f (.error fault)) (fun _ _ => False))
    (hok : ∀ text, Finds (f (.ok text)) (fun _ => R text)) :
    Finds (readText path >>= f) (fun files a => ∃ text, files.Holds path text ∧ R text a) := by
  have hf : ∀ t, Finds (f t) (fun _ a => ∃ text, t = .ok text ∧ R text a) := by
    intro t
    cases t with
    | error fault => exact (herror fault).congr (by simp)
    | ok text => exact (hok text).congr (by simp)
  refine ((finds_readText path).bind hf).congr (fun files a => ?_)
  apply Iff.intro
  · rintro ⟨_, ⟨content, hread, rfl⟩, text, htext, ha⟩
    obtain ⟨raw, hraw, rfl⟩ := map_eq_ok_iff.mp htext
    exact ⟨_, ⟨content, raw, hread, hraw, rfl⟩, ha⟩
  · rintro ⟨_, ⟨content, raw, hread, hraw, rfl⟩, ha⟩
    exact ⟨_, ⟨content, hread, rfl⟩, _, map_eq_ok_iff.mpr ⟨raw, hraw, rfl⟩, ha⟩

/-- A path that is read is there. -/
theorem exists_reads_iff {e : Environment} {files : FileTree} {raw : String}
    {R : List Char → Prop} :
    (∃ path, (Path.resolve e.folder e.homes raw = .ok path ∧ files.has path = .ok true) ∧
      ∃ text, files.Holds path text ∧ R text) ↔ ∃ text, e.Reads files raw text ∧ R text := by
  apply Iff.intro
  · rintro ⟨path, ⟨hpath, -⟩, text, hholds, hr⟩
    exact ⟨text, ⟨path, hpath, hholds⟩, hr⟩
  · rintro ⟨text, ⟨path, hpath, hholds⟩, hr⟩
    have ⟨content, _, hread, _⟩ := hholds
    exact ⟨path, ⟨hpath, FileTree.has_of_read hread⟩, text, hholds, hr⟩

theorem finds_load (raw : String) :
    Finds (load c raw) (fun files p => c.environment.Loads files raw p) := by
  refine ((finds_resolveExisting c raw "program").bind (fun path => (finds_log c _).andThen
    (finds_readText_bind (R := fun text p => Program.ofText c.environment.dialect text = .ok p)
      (fun fault => finds_complaint c _) (fun text => ?_)))).congr (fun files p => exists_reads_iff)
  dsimp only
  cases Program.ofText c.environment.dialect text with
  | ok p => exact ((finds_log c _).andThen (finds_pure p)).congr (by simp [eq_comm])
  | error f =>
    cases f with
    | malformed cause => exact (finds_complaint c _).congr (by simp)
    | overflow => exact (finds_broken _).congr (by simp)
    | longInteger digits => exact (finds_broken _).congr (by simp)
    | tooDeep container => exact (finds_broken _).congr (by simp)
    | write f => exact (finds_broken _).congr (by simp)

theorem finds_analyse (raw : String) :
    Finds (analyse c raw)
      (fun files a => ∃ p, c.environment.Loads files raw p ∧ a = p.analyse) := by
  refine ((finds_load c raw).bind (R := fun p _ a => p.analyse.stop = none ∧ a = p.analyse)
    (fun p => (finds_forM (finds_log c) _).andThen ?_)).congr
      (fun files a => exists_congr (fun p => and_congr_right (fun ⟨_, _, hp⟩ => ?_)))
  · dsimp only
    cases p.analyse.stop with
    | some f => exact (finds_broken _).congr (by simp)
    | none =>
      exact ((finds_forM (fun _ => finds_printError _) _).andThen (finds_pure _)).congr (by simp)
  · exact and_iff_right (Program.stop_ofText hp)

theorem finds_selected (a : Analysis) (node : Option Value) :
    Finds (selected c a node) (fun _ vertices => Selects a node vertices) := by
  cases node with
  | none =>
    refine (finds_pure a.vertices).congr (fun _ vertices => ?_)
    apply Iff.intro
    · rintro rfl
      exact .all
    · rintro ⟨⟩
      rfl
  | some value =>
    cases value with
    | nothing => exact (finds_broken _).congr (fun _ _ => ⟨False.elim, fun h => nomatch h⟩)
    | text name =>
      rw [selected]
      cases hflow : a.flows.get? name with
      | none =>
        refine (finds_complaint c _).congr (fun _ _ => ⟨False.elim, ?_⟩)
        rintro (_ | h)
        simp [hflow] at h
      | some flow =>
        refine (finds_pure flow.vertices).congr (fun _ vertices => ?_)
        apply Iff.intro
        · rintro rfl
          exact .one hflow
        · rintro (_ | h)
          rw [hflow] at h
          cases h
          rfl

theorem finds_loadStrings_file {raw : String} (hraw : raw ≠ "") :
    Finds (loadStrings c (some raw)) (fun files table =>
      ∃ text, c.environment.Reads files raw text ∧
        ∃ document, Json.read c.environment.dialect text = .ok document ∧ table = ⟨document⟩) := by
  have hfilter : (some raw).filter (· ≠ "") = some raw := by simp [hraw]
  rw [loadStrings, hfilter]
  refine ((finds_resolveExisting c raw "string table").bind (fun path =>
    finds_readText_bind (R := fun text table => ∃ document,
      Json.read c.environment.dialect text = .ok document ∧ table = ⟨document⟩)
      (fun fault => finds_broken (.text fault)) (fun text => ?_))).congr
        (fun files table => exists_reads_iff)
  simp only [orBreak, pure_bind]
  cases Json.read c.environment.dialect text with
  | ok document => exact (finds_pure _).congr (by simp)
  | error f =>
    cases f with
    | problem what offset => exact (finds_complaint c _).congr (by simp)
    | longInteger digits => exact (finds_broken _).congr (by simp)
    | tooDeep container => exact (finds_broken _).congr (by simp)

theorem finds_loadStrings (raw : Option String) :
    Finds (loadStrings c raw) (fun files table => c.environment.LoadsStrings files raw table) := by
  cases raw with
  | none =>
    refine (finds_pure StringTable.empty).congr (fun _ _ => ⟨?_, ?_⟩)
    · rintro rfl
      exact .absent
    · rintro ⟨⟩
      rfl
  | some raw =>
    by_cases hraw : raw = ""
    · subst raw
      refine (finds_pure StringTable.empty).congr (fun _ _ => ⟨?_, ?_⟩)
      · rintro rfl
        exact .unnamed
      · rintro (_ | _ | h)
        · rfl
        · contradiction
    · refine (finds_loadStrings_file c hraw).congr (fun _ _ => ⟨?_, ?_⟩)
      · rintro ⟨text, hread, document, hdocument, rfl⟩
        exact .file hraw hread hdocument
      · rintro (_ | _ | ⟨-, hread, hdocument⟩)
        · contradiction
        · exact ⟨_, hread, _, hdocument, rfl⟩

end Command

end DialogueFlow
