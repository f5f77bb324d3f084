import DefFlow.Editor.Session
import DefFlow.Proofs.Editor.Consult

/-!
# Sessions answer from the latest text

A session keeps the compilation of each document and hovers change it. Main statement: after
any messages, what a session answers about a document is what a new session would answer that
has only been sent the last whole text of that document.
-/

set_option autoImplicit false

namespace DefFlow.Editor

open DefFlow.Flow

/-! ## Messages -/

inductive Message where
  | opened (uri text : String)
  | changed (uri : String) (changes : List Change)
  | closed (uri : String)
  | hover (uri : String) (line char : Nat)
  | tokens (uri : String)
  | formatting (uri : String)
  deriving DecidableEq, Repr

inductive Reply where
  | done
  | hover (found : Option Hover)
  | tokens (data : List UInt32)
  | edit (edit : Option TextEdit)
  | refused (e : SessionError)
  deriving DecidableEq, Repr

def Reply.of {α : Type} (reply : α → Reply) (x : Request α) (s : Session) : Reply × Session :=
  match x s with
  | .ok a s => (reply a, s)
  | .error e s => (.refused e, s)

theorem Reply.of_ok {α : Type} {reply : α → Reply} {x : Request α} {s s' : Session} {a : α}
    (h : x s = .ok a s') : Reply.of reply x s = (reply a, s') := by
  rw [Reply.of, h]

theorem Reply.of_error {α : Type} {reply : α → Reply} {x : Request α} {s s' : Session}
    {e : SessionError} (h : x s = .error e s') : Reply.of reply x s = (.refused e, s') := by
  rw [Reply.of, h]

def tokensOf (c : Compilation) : List UInt32 :=
  (c.tree.map fun tree => SemanticToken.encode (SemanticToken.collect tree)).getD []

def editOf (c : Compilation) : Option TextEdit :=
  c.tree.bind fun tree =>
    if tree.text = c.source then none
    else some ⟨⟨0, 0, UInt32.ofNat (c.source.toList.count '\n' + 1), 0⟩, tree.text⟩

namespace Message

def uri : Message → String
  | opened uri _ | changed uri _ | closed uri | hover uri _ _ | tokens uri | formatting uri => uri

/-- The document that a message is about, if its address can be read. -/
def path? (m : Message) : Option (List UInt8) := (Uri.path m.uri).toOption

def asks : Message → Bool
  | hover _ _ _ | tokens _ | formatting _ => true
  | opened _ _ | changed _ _ | closed _ => false

def closes : Message → Bool
  | closed _ => true
  | _ => false

/-- The whole text that a message sends, the last one if there are several. -/
def whole? : Message → Option String
  | opened _ text => some text
  | changed _ changes => (changes.filterMap fun
    | .whole text => some text
    | .part _ => none).getLast?
  | _ => none

def serve : Message → Session → Reply × Session
  | opened uri text => Reply.of (fun _ => .done) (Session.openDocument uri text)
  | changed uri changes => Reply.of (fun _ => .done) (Session.changeDocument uri changes)
  | closed uri => Reply.of (fun _ => .done) (Session.closeDocument uri)
  | hover uri line char => Reply.of .hover (Session.hover uri line char)
  | tokens uri => Reply.of .tokens (Session.semanticTokens uri)
  | formatting uri => Reply.of .edit (Session.formatting uri)

def answer (c : Compilation) : Message → Option Reply
  | hover _ line char => (hoverAt line char c).toOption.map fun r => .hover r.1
  | tokens _ => some (.tokens (tokensOf c))
  | formatting _ => some (.edit (editOf c))
  | opened _ _ | changed _ _ | closed _ => none

def settle (path : List UInt8) (text : Option String) (m : Message) : Option String :=
  if m.path? = some path then if m.closes then none else m.whole?.or text else text

end Message

namespace Session

def after (s : Session) (ms : List Message) : Session := ms.foldl (fun s m => (m.serve s).2) s

def sent (ms : List Message) (path : List UInt8) : Option String :=
    ms.foldl (Message.settle path) none

def textOf (disk : Files) (ms : List Message) (path : List UInt8) : Except FileProblem String :=
  match sent ms path with
  | some text => .ok text
  | none => readDisk path disk

/-- A new session that has only been sent the last text of one document. -/
def fresh (settings : Settings) (disk : Files) (ms : List Message) (uri : String) : Session :=
  match (Uri.path uri).toOption.bind (sent ms) with
  | some text => (new settings disk).after [.opened uri text]
  | none => new settings disk

/-- Every text that the messages make a session compile can be compiled. -/
def Compiles (settings : Settings) (disk : Files) (ms : List Message) : Prop :=
  ∀ before m, before ++ [m] <+: ms → ∀ path ∈ m.path?, m.closes = false →
    ∀ text, textOf disk (before ++ [m]) path = .ok text →
      ∃ c, Compile.compile (Text.ofBytes path) text settings false = .ok c

section

variable {α β : Type} {settings : Settings} {disk : Files} {ms : List Message} {m : Message}
  {s s' : Session} {path q : List UInt8} {uri text : String} {c c₀ : Compilation}

/-! ## Requests -/

theorem bind_eq {x : Request α} {g : α → Request β} {a : α} (h : x s = .ok a s') :
    (x >>= g) s = g a s' := by
  change EStateM.bind x g s = _
  rw [EStateM.bind, h]

theorem bind_error {x : Request α} {g : α → Request β} {e : SessionError}
    (h : x s = .error e s') : (x >>= g) s = .error e s' := by
  change EStateM.bind x g s = _
  rw [EStateM.bind, h]

theorem pathOf_eq (h : Uri.path uri = .ok path) (s : Session) : pathOf uri s = .ok path s := by
  rw [pathOf, h]
  rfl

theorem pathOf_error {e : Uri.Malformed} (h : Uri.path uri = .error e) (s : Session) :
    pathOf uri s = .error (.address e) s := by
  rw [pathOf, h]
  rfl

def holding (s : Session) (path : List UInt8) (c : Compilation) : Session :=
  { s with documents := (path, c) :: s.documents.filter fun d => d.1 ≠ path }

theorem lookup_holding : (s.holding path c).documents.lookup q =
    if q = path then some c else s.documents.lookup q := by
  rw [holding, lookup_cons_ite, lookup_filter_ne]
  split <;> rfl

theorem update_eq (hpath : Uri.path uri = .ok path)
    (hc : Compile.compile (Text.ofBytes path) text s.settings false = .ok c) :
    update uri text s = .ok c { s.holding path c with
      outbox := s.outbox ++ [⟨uri, c.diagnostics.map Mark.ofDiagnostic⟩] } := by
  rw [update, bind_eq (pathOf_eq hpath s), bind_eq (x := get) rfl, hc]
  rfl

theorem load_of_some (hpath : Uri.path uri = .ok path) (hc : s.documents.lookup path = some c) :
    load uri s = .ok c s := by
  rw [load, bind_eq (pathOf_eq hpath s), bind_eq (x := get) rfl, hc]
  rfl

theorem load_of_none (hpath : Uri.path uri = .ok path) (hc : s.documents.lookup path = none) :
    load uri s = match readDisk path s.disk with
      | .ok text => update uri text s
      | .error p => .error (.unreadable path p) s := by
  rw [load, bind_eq (pathOf_eq hpath s), bind_eq (x := get) rfl, hc]
  dsimp only
  rw [bind_eq (x := get) rfl]
  cases readDisk path s.disk <;> rfl

/-! ## What a session keeps -/

/-- Each document that a session holds is a compilation of the text that it has, but for the
hovers since. -/
structure Tracks (settings : Settings) (disk : Files) (ms : List Message) (s : Session) : Prop where
  settings_eq : s.settings = settings
  disk_eq : s.disk = disk
  held : ∀ path c, s.documents.lookup path = some c → ∃ text c₀, textOf disk ms path = .ok text ∧
    Compile.compile (Text.ofBytes path) text settings false = .ok c₀ ∧ Hovered c₀ c
  sent_held : ∀ path, s.documents.lookup path = none → sent ms path = none

theorem Tracks.new (settings : Settings) (disk : Files) :
    Tracks settings disk [] (Session.new settings disk) :=
  ⟨rfl, rfl, nofun, fun _ _ => rfl⟩

theorem sent_append (ms : List Message) (m : Message) (path : List UInt8) :
    sent (ms ++ [m]) path = m.settle path (sent ms path) := List.foldl_concat ..

theorem sent_append_of_path (h : m.path? = some path) (q : List UInt8) : sent (ms ++ [m]) q =
    if q = path then if m.closes then none else m.whole?.or (sent ms q) else sent ms q := by
  rw [sent_append, Message.settle, h]
  by_cases hq : q = path
  · rw [if_pos (congrArg some hq.symm), if_pos hq]
  · rw [if_neg fun he => hq (Option.some.inj he).symm, if_neg hq]

/-- A message that sends no whole text leaves the texts as they are. -/
theorem settle_of_whole?_none (h : m.whole? = none) (hm : m.closes = false) (path : List UInt8)
    (text : Option String) : m.settle path text = text := by
  rw [Message.settle, hm, h, Option.none_or]
  exact ite_self text

theorem Tracks.same {ms' : List Message} (h : Tracks settings disk ms s)
    (hsent : ∀ q, sent ms' q = sent ms q) : Tracks settings disk ms' s := by
  have htext : ∀ q, textOf disk ms' q = textOf disk ms q := fun q => by rw [textOf, textOf, hsent]
  refine ⟨h.settings_eq, h.disk_eq, fun q c hc => ?_, fun q hq => ?_⟩
  · rw [htext]
    exact h.held q c hc
  · rw [hsent]
    exact h.sent_held q hq

/-- A document is compiled anew, or asked, and its text becomes what it has been told to be. -/
theorem Tracks.store {ms' : List Message} (h : Tracks settings disk ms s)
    (hsent : ∀ q, q ≠ path → sent ms' q = sent ms q) (htext : textOf disk ms' path = .ok text)
    (hc₀ : Compile.compile (Text.ofBytes path) text settings false = .ok c₀) (hc : Hovered c₀ c)
    (outbox : List Publication) :
    Tracks settings disk ms' { s.holding path c with outbox := outbox } where
  settings_eq := h.settings_eq
  disk_eq := h.disk_eq
  held q k hk := by
    change (s.holding path c).documents.lookup q = _ at hk
    rw [lookup_holding] at hk
    split at hk
    · next hq =>
      cases hk
      exact ⟨text, c₀, hq ▸ htext, hq ▸ hc₀, hc⟩
    · next hq =>
      rw [textOf, hsent q hq]
      exact h.held q k hk
  sent_held q hq := by
    change (s.holding path c).documents.lookup q = _ at hq
    rw [lookup_holding] at hq
    split at hq
    · cases hq
    · next hne =>
      rw [hsent q hne]
      exact h.sent_held q hq

/-- Loading a document gives the compilation of its text, but for the hovers since. -/
theorem Tracks.load (h : Tracks settings disk ms s) (hpath : Uri.path uri = .ok path) :
    (∀ p, textOf disk ms path = .error p → load uri s = .error (.unreadable path p) s) ∧
    ∀ text c₀, textOf disk ms path = .ok text →
      Compile.compile (Text.ofBytes path) text settings false = .ok c₀ →
      ∃ c s', load uri s = .ok c s' ∧ Hovered c₀ c ∧ Tracks settings disk ms s' := by
  cases hdoc : s.documents.lookup path with
  | some c =>
    obtain ⟨text, c₀, htext, hc₀, hc⟩ := h.held path c hdoc
    refine ⟨fun p hp => ?_, fun text' c' htext' hc' => ?_⟩
    · rw [htext] at hp
      cases hp
    · cases htext.symm.trans htext'
      cases hc₀.symm.trans hc'
      exact ⟨c, s, load_of_some hpath hdoc, hc, h⟩
  | none =>
    have hdisk : textOf disk ms path = readDisk path disk := by
      rw [textOf, h.sent_held path hdoc]
    rw [load_of_none hpath hdoc, h.disk_eq, ← hdisk]
    refine ⟨fun p hp => by rw [hp], fun text c₀ htext hc₀ => ?_⟩
    rw [htext]
    have hover := (Compile.compile_complete hc₀).hovered
    exact ⟨c₀, _, update_eq hpath (h.settings_eq.symm ▸ hc₀), hover,
      h.store (fun _ _ => rfl) htext hc₀ hover _⟩

/-! ## One message -/

theorem openDocument_of_update (h : update uri text s = .ok c s') :
    openDocument uri text s = .ok () s' := by
  rw [openDocument, bind_eq h]
  rfl

theorem changeDocument_of_whole {changes : List Change}
    (h : (Message.changed uri changes).whole? = some text) :
    changeDocument uri changes = openDocument uri text := by
  change (match (Message.changed uri changes).whole? with
    | some text => _
    | none => _) = _
  rw [h]
  rfl

theorem changeDocument_of_none {changes : List Change}
    (h : (Message.changed uri changes).whole? = none) :
    changeDocument uri changes = (do let _ ← load uri) := by
  change (match (Message.changed uri changes).whole? with
    | some text => _
    | none => _) = _
  rw [h]

/-- A message with an address that cannot be read changes nothing. -/
theorem serve_malformed {e : Uri.Malformed} (h : Uri.path m.uri = .error e) (s : Session) :
    m.serve s = (.refused (.address e), s) := by
  have hpath := pathOf_error h s
  have hload : load m.uri s = .error (.address e) s := bind_error hpath
  have hopen : ∀ text, openDocument m.uri text s = .error (.address e) s := fun text =>
    bind_error (bind_error hpath)
  cases m with
  | opened uri text => exact Reply.of_error (hopen text)
  | changed uri changes =>
    refine Reply.of_error ?_
    cases hw : (Message.changed uri changes).whole? with
    | some text =>
      rw [changeDocument_of_whole hw]
      exact hopen text
    | none =>
      rw [changeDocument_of_none hw]
      exact bind_error hload
  | closed uri => exact Reply.of_error (bind_error hpath)
  | hover uri line char => exact Reply.of_error (bind_error hpath)
  | tokens uri => exact Reply.of_error (bind_error hload)
  | formatting uri => exact Reply.of_error (bind_error hload)

/-- A question about a document without a text is refused. -/
theorem Tracks.ask_unreadable (h : Tracks settings disk ms s) (hpath : Uri.path m.uri = .ok path)
    (hm : m.asks = true) {p : FileProblem} (htext : textOf disk ms path = .error p) :
    m.serve s = (.refused (.unreadable path p), s) := by
  have hload := (h.load hpath).1 p htext
  cases m with
  | opened _ _ | changed _ _ | closed _ => cases hm
  | hover uri line char =>
    exact Reply.of_error ((bind_eq (pathOf_eq hpath s)).trans (bind_error hload))
  | tokens uri => exact Reply.of_error (bind_error hload)
  | formatting uri => exact Reply.of_error (bind_error hload)

theorem hover_of_load (hpath : Uri.path uri = .ok path) {line char : Nat} {found : Option Hover}
    {k : Compilation} (hload : load uri s = .ok c s') (hc : hoverAt line char c = .ok (found, k)) :
    Session.hover uri line char s = .ok found (s'.holding path k) := by
  rw [Session.hover, bind_eq (pathOf_eq hpath s), bind_eq hload, hc]
  rfl

theorem semanticTokens_of_load (hload : load uri s = .ok c s') :
    semanticTokens uri s = .ok (tokensOf c) s' := by
  rw [semanticTokens, bind_eq hload, tokensOf]
  cases c.tree <;> rfl

theorem formatting_of_load (hload : load uri s = .ok c s') :
    Session.formatting uri s = .ok (editOf c) s' := by
  rw [Session.formatting, bind_eq hload, editOf]
  cases c.tree with
  | none => rfl
  | some tree =>
    dsimp only [Option.bind_some]
    split <;> rfl

/-- A question is answered from the text of its document. -/
theorem Tracks.ask (h : Tracks settings disk ms s) (hpath : Uri.path m.uri = .ok path)
    (hm : m.asks = true) (htext : textOf disk ms path = .ok text)
    (hc₀ : Compile.compile (Text.ofBytes path) text settings false = .ok c₀) :
    m.answer c₀ = some (m.serve s).1 ∧ Tracks settings disk ms (m.serve s).2 := by
  obtain ⟨c, s', hload, hc, hs'⟩ := (h.load hpath).2 text c₀ htext hc₀
  cases m with
  | opened _ _ | changed _ _ | closed _ => cases hm
  | hover uri line char =>
    obtain ⟨found, k, k', hrun, hrun', hk⟩ :=
      hc.hoverAt (Compile.compile_complete hc₀) line char
    have hserve : (Message.hover uri line char).serve s = (.hover found, s'.holding path k') :=
      Reply.of_ok (hover_of_load hpath hload hrun')
    rw [hserve, Message.answer, hrun]
    exact ⟨rfl, hs'.store (fun _ _ => rfl) htext hc₀ hk s'.outbox⟩
  | tokens uri =>
    have hserve : (Message.tokens uri).serve s = (.tokens (tokensOf c), s') :=
      Reply.of_ok (semanticTokens_of_load hload)
    rw [hserve, Message.answer, tokensOf, tokensOf, hc.tree]
    exact ⟨rfl, hs'⟩
  | formatting uri =>
    have hserve : (Message.formatting uri).serve s = (.edit (editOf c), s') :=
      Reply.of_ok (formatting_of_load hload)
    rw [hserve, Message.answer, editOf, editOf, hc.tree, hc.source]
    exact ⟨rfl, hs'⟩

/-- A text that is sent is compiled, and its marks are published. -/
theorem Tracks.send (h : Tracks settings disk ms s) (hpath : Uri.path m.uri = .ok path)
    (hw : m.whole? = some text)
    (hc : Compile.compile (Text.ofBytes path) text settings false = .ok c) :
    m.serve s = (.done, { s.holding path c with
      outbox := s.outbox ++ [⟨m.uri, c.diagnostics.map Mark.ofDiagnostic⟩] }) := by
  have hopen := openDocument_of_update (update_eq hpath (h.settings_eq.symm ▸ hc))
  cases m with
  | closed _ | hover _ _ _ | tokens _ | formatting _ => cases hw
  | opened uri text' =>
    cases hw
    exact Reply.of_ok hopen
  | changed uri changes =>
    rw [Message.serve, changeDocument_of_whole hw]
    exact Reply.of_ok hopen

theorem Tracks.close (h : Tracks settings disk ms s) (hpath : Uri.path uri = .ok path) :
    Tracks settings disk (ms ++ [.closed uri]) ((Message.closed uri).serve s).2 := by
  have hserve : (Message.closed uri).serve s =
      (.done, { s with documents := s.documents.filter fun d => d.1 ≠ path }) :=
    Reply.of_ok (bind_eq (pathOf_eq hpath s))
  have hclosed : (Message.closed uri).path? = some path := by
    rw [Message.path?, Message.uri, hpath]
    rfl
  have hsent : ∀ q, sent (ms ++ [.closed uri]) q = if q = path then none else sent ms q := by
    exact sent_append_of_path hclosed
  rw [hserve]
  refine ⟨h.settings_eq, h.disk_eq, fun q c hc => ?_, fun q hq => ?_⟩
  · rw [lookup_filter_ne] at hc
    split at hc
    · cases hc
    · next hne =>
      rw [textOf, hsent, if_neg hne]
      exact h.held q c hc
  · rw [lookup_filter_ne] at hq
    rw [hsent]
    split at hq
    · next heq => rw [if_pos heq]
    · next hne =>
      rw [if_neg hne]
      exact h.sent_held q hq

/-- A change that holds no whole text only loads the document. -/
theorem Tracks.idle (h : Tracks settings disk ms s) (hpath : Uri.path m.uri = .ok path)
    (hcl : m.closes = false) (hw : m.whole? = none) (htext : textOf disk ms path = .ok text)
    (hc₀ : Compile.compile (Text.ofBytes path) text settings false = .ok c₀) :
    Tracks settings disk ms (m.serve s).2 := by
  cases m with
  | opened _ _ => cases hw
  | closed _ => cases hcl
  | hover _ _ _ | tokens _ | formatting _ => exact (h.ask hpath rfl htext hc₀).2
  | changed uri changes =>
    obtain ⟨c, s', hload, -, hs'⟩ := (h.load hpath).2 text c₀ htext hc₀
    have hserve : (Message.changed uri changes).serve s = (.done, s') := by
      rw [Message.serve, changeDocument_of_none hw]
      exact Reply.of_ok (bind_eq hload)
    rw [hserve]
    exact hs'

theorem Tracks.idle_unreadable (h : Tracks settings disk ms s) (hpath : Uri.path m.uri = .ok path)
    (hcl : m.closes = false) (hw : m.whole? = none) {p : FileProblem}
    (htext : textOf disk ms path = .error p) : (m.serve s).2 = s := by
  cases m with
  | opened _ _ => cases hw
  | closed _ => cases hcl
  | hover _ _ _ | tokens _ | formatting _ => rw [h.ask_unreadable hpath rfl htext]
  | changed uri changes =>
    have hload := (h.load hpath).1 p htext
    have hserve : (Message.changed uri changes).serve s = (.refused (.unreadable path p), s) := by
      rw [Message.serve, changeDocument_of_none hw]
      exact Reply.of_error (bind_error hload)
    rw [hserve]

/-- A message for which every text can be compiled leaves a session true to the texts. -/
theorem Tracks.serve (h : Tracks settings disk ms s)
    (hm : ∀ path ∈ m.path?, m.closes = false → ∀ text, textOf disk (ms ++ [m]) path = .ok text →
      ∃ c, Compile.compile (Text.ofBytes path) text settings false = .ok c) :
    Tracks settings disk (ms ++ [m]) (m.serve s).2 := by
  cases hpath : Uri.path m.uri with
  | error e =>
    rw [serve_malformed hpath]
    refine h.same fun q => ?_
    rw [sent_append, Message.settle, Message.path?, hpath]
    exact if_neg nofun
  | ok path =>
    have hp : m.path? = some path := by
      rw [Message.path?, hpath]
      rfl
    cases hcl : m.closes with
    | true =>
      cases m with
      | closed uri => exact h.close hpath
      | opened _ _ | changed _ _ | hover _ _ _ | tokens _ | formatting _ => cases hcl
    | false =>
      cases hw : m.whole? with
      | some text =>
        have hsent : ∀ q, sent (ms ++ [m]) q = if q = path then some text else sent ms q := by
          intro q
          rw [sent_append_of_path hp, hcl, hw]
          rfl
        have htext : textOf disk (ms ++ [m]) path = .ok text := by
          rw [textOf, hsent, if_pos rfl]
        obtain ⟨c, hc⟩ := hm path hp hcl text htext
        rw [h.send hpath hw hc]
        exact h.store (fun q hq => (hsent q).trans (if_neg hq)) htext hc
          (Compile.compile_complete hc).hovered _
      | none =>
        have hsent : ∀ q, sent (ms ++ [m]) q = sent ms q := fun q => by
          rw [sent_append, settle_of_whole?_none hw hcl]
        have htext : textOf disk (ms ++ [m]) path = textOf disk ms path := by
          rw [textOf, textOf, hsent]
        refine Tracks.same ?_ hsent
        have hc : ∀ text, textOf disk ms path = .ok text →
            ∃ c, Compile.compile (Text.ofBytes path) text settings false = .ok c :=
          fun text h => hm path hp hcl text (htext.trans h)
        cases hold : textOf disk ms path with
        | error p =>
          rw [h.idle_unreadable hpath hcl hw hold]
          exact h
        | ok text =>
          obtain ⟨c, hc⟩ := hc text hold
          exact h.idle hpath hcl hw hold hc

theorem answer_ne_refused {e : SessionError} (h : m.answer c = some (.refused e)) : False := by
  cases m with
  | opened _ _ | changed _ _ | closed _ | tokens _ | formatting _ => cases h
  | hover _ _ _ =>
    obtain ⟨r, -, hr⟩ := Option.map_eq_some_iff.mp h
    cases hr

/-! ## Runs -/

theorem Compiles.of_isPrefix {ms' : List Message} (h : Compiles settings disk ms)
    (hp : ms' <+: ms) : Compiles settings disk ms' :=
  fun before m hm => h before m (hm.trans hp)

theorem Compiles.tracks (h : Compiles settings disk ms) :
    Tracks settings disk ms ((Session.new settings disk).after ms) := by
  induction ms using List.reverseRecOn with
  | nil => exact .new settings disk
  | append_singleton ms m ih =>
    have hs := ih (h.of_isPrefix (List.prefix_append ms [m]))
    rw [after, List.foldl_concat]
    exact hs.serve (h ms m (List.prefix_refl _))

/-- A new session that was sent the last text of a document has that text. -/
theorem fresh_tracks (hpath : Uri.path uri = .ok path)
    (hc : ∀ text, sent ms path = some text →
      ∃ c, Compile.compile (Text.ofBytes path) text settings false = .ok c) :
    ∃ ms', Tracks settings disk ms' (fresh settings disk ms uri) ∧
      textOf disk ms' path = textOf disk ms path := by
  have hnew := Tracks.new settings disk
  have hopt : (Uri.path uri).toOption = some path := by
    rw [hpath]
    rfl
  rw [fresh, hopt, Option.bind_some]
  cases hsent : sent ms path with
  | none => exact ⟨[], hnew, by rw [textOf, textOf, hsent]; rfl⟩
  | some text =>
    have hp : (Message.opened uri text).path? = some path := hopt
    have hopened : textOf disk ([] ++ [.opened uri text]) path = .ok text := by
      rw [textOf, sent_append_of_path hp, if_pos rfl]
      rfl
    refine ⟨[] ++ [.opened uri text], hnew.serve fun q hq _ text' htext => ?_, ?_⟩
    · obtain rfl : path = q := Option.some.inj (hp.symm.trans hq)
      cases hopened.symm.trans htext
      exact hc text hsent
    · rw [hopened, textOf, hsent]

/-- Along any run whose texts can be compiled, a question is answered as by a new session that has
only been sent the last whole text of its document, and is not refused if there is such a text or a
file. Each text that is sent publishes its own marks and nothing else. -/
theorem answers_depend_on_latest_text (settings : Settings) (disk : Files) (ms : List Message)
    (h : Compiles settings disk ms) (before : List Message) (m : Message)
    (hm : before ++ [m] <+: ms) :
    (m.asks = true →
      (m.serve ((Session.new settings disk).after before)).1 =
        (m.serve (fresh settings disk before m.uri)).1 ∧
      ∀ path cause, (m.serve ((Session.new settings disk).after before)).1 ≠
        .refused (.failed path cause)) ∧
    ∀ path ∈ m.path?, ∀ text ∈ m.whole?, ∃ c,
      Compile.compile (Text.ofBytes path) text settings false = .ok c ∧
      (m.serve ((Session.new settings disk).after before)).1 = .done ∧
      (m.serve ((Session.new settings disk).after before)).2.outbox =
        ((Session.new settings disk).after before).outbox ++
          [⟨m.uri, c.diagnostics.map Mark.ofDiagnostic⟩] := by
  have hs := (h.of_isPrefix ((List.prefix_append before [m]).trans hm)).tracks
  cases hpath : Uri.path m.uri with
  | error e =>
    rw [serve_malformed hpath, serve_malformed hpath]
    refine ⟨fun _ => ⟨rfl, fun path cause he => ?_⟩, fun path hp => ?_⟩
    · cases he
    · rw [Message.path?, hpath] at hp
      cases hp
  | ok path =>
    have hp : m.path? = some path := by
      rw [Message.path?, hpath]
      rfl
    refine ⟨fun hasks => ?_, fun q hq text hw => ?_⟩
    · have hcl : m.closes = false := by cases m <;> first | rfl | cases hasks
      have hw : m.whole? = none := by cases m <;> first | rfl | cases hasks
      have hc : ∀ text, textOf disk before path = .ok text →
          ∃ c, Compile.compile (Text.ofBytes path) text settings false = .ok c := by
        intro text htext
        refine h before m hm path hp hcl text ?_
        rwa [textOf, sent_append, settle_of_whole?_none hw hcl]
      obtain ⟨ms', hfresh, hsame⟩ := fresh_tracks hpath fun text hsent =>
        hc text (by rw [textOf, hsent])
      cases htext : textOf disk before path with
      | error p =>
        rw [hs.ask_unreadable hpath hasks htext,
          hfresh.ask_unreadable hpath hasks (hsame.trans htext)]
        refine ⟨rfl, fun path cause he => ?_⟩
        cases he
      | ok text =>
        obtain ⟨c, hc⟩ := hc text htext
        have hanswer := (hs.ask hpath hasks htext hc).1
        refine ⟨?_, fun q cause he => ?_⟩
        · exact Option.some.inj
            (hanswer.symm.trans (hfresh.ask hpath hasks (hsame.trans htext) hc).1)
        · rw [he] at hanswer
          exact answer_ne_refused hanswer
    · obtain rfl : path = q := Option.some.inj (hp.symm.trans hq)
      have hcl : m.closes = false := by cases m <;> first | rfl | cases hw
      have htext : textOf disk (before ++ [m]) path = .ok text := by
        rw [textOf, sent_append_of_path hp, if_pos rfl, hcl, Option.mem_def.mp hw]
        rfl
      obtain ⟨c, hc⟩ := h before m hm path hp hcl text htext
      rw [hs.send hpath hw hc]
      exact ⟨c, hc, rfl, rfl⟩

/-- A run stays compilable if the text that its next message leaves compiles. -/
theorem Compiles.append (h : Compiles settings disk ms) (hpath : m.path? = some path)
    (hsent : sent (ms ++ [m]) path = some text)
    (hc : ∃ c, Compile.compile (Text.ofBytes path) text settings false = .ok c) :
    Compiles settings disk (ms ++ [m]) := by
  intro before m' hp path' hpath' hcl text' htext
  rcases List.prefix_concat_iff.mp hp with heq | hp
  · obtain ⟨rfl, hlast⟩ := List.append_inj' heq rfl
    obtain rfl : m' = m := List.cons.inj hlast |>.1
    obtain rfl : path = path' := Option.some.inj (hpath.symm.trans hpath')
    rw [textOf, hsent] at htext
    cases htext
    exact hc
  · exact h before m' hp path' hpath' hcl text' htext

/-- A document with a use that is possibly undefined, which is hovered over, and another one. -/
def visit : List Message :=
  [.opened "file:///a" Compile.halfAssigned, .hover "file:///a" 0 81, .opened "file:///b" ""]

/-- The use is hovered over once more. -/
theorem answers_depend_on_latest_text_behind_branch :
    Compiles Settings.standard ⟨[]⟩ (visit ++ [.hover "file:///a" 0 81]) ∧
    ((Message.hover "file:///a" 0 81).serve ((Session.new Settings.standard ⟨[]⟩).after visit)).1 =
      ((Message.hover "file:///a" 0 81).serve
        (fresh Settings.standard ⟨[]⟩ visit "file:///a")).1 := by
  have hpath : (Uri.path "file:///a").toOption = some [47, 97] := by decide +kernel
  have hother : (Uri.path "file:///b").toOption = some [47, 98] := by decide +kernel
  have hc : ∃ c, Compile.compile (Text.ofBytes [47, 97]) Compile.halfAssigned Settings.standard
      false = .ok c :=
    (exists_of_any (p := fun _ => true) (by decide +kernel)).imp fun c hc => hc.1
  have hempty : ∃ c, Compile.compile (Text.ofBytes [47, 98]) "" Settings.standard false = .ok c :=
    (exists_of_any (p := fun _ => true) (by decide +kernel)).imp fun c hc => hc.1
  have hcompiles : Compiles Settings.standard ⟨[]⟩ (visit ++ [.hover "file:///a" 0 81]) := by
    have hnil : Compiles Settings.standard ⟨[]⟩ [] := fun before m hm => by
      cases List.append_eq_nil_iff.mp (List.prefix_nil.mp hm) |>.2
    have hopened := hnil.append (m := .opened "file:///a" Compile.halfAssigned) hpath
      (by decide +kernel) hc
    have hhovered := hopened.append (m := .hover "file:///a" 0 81) hpath (by decide +kernel) hc
    have hsecond := hhovered.append (m := .opened "file:///b" "") hother (by decide +kernel) hempty
    exact hsecond.append hpath (by decide +kernel) hc
  exact ⟨hcompiles, ((answers_depend_on_latest_text Settings.standard ⟨[]⟩ _ hcompiles visit
    (.hover "file:///a" 0 81) (List.prefix_refl _)).1 rfl).1⟩

end

end Session

end DefFlow.Editor
