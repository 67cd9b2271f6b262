import CodeRag.Api.Theorems.Lock

-- What all interleavings of the calls on one object have in common.

namespace Client

variable {c c' : Client} {m v : Nat} {e : Event} {conns : List Nat} {st : StorageHandle}
variable {owner : Option EmbedderHandle}

-- The holder of the lock opens a storage for an embedder. The given connections are open.
structure Opening (owner : Option EmbedderHandle) (conns : List Nat) (c : Client) : Prop
    extends Stack c where
  storage     : c.storage = none
  connections : c.Connects conns
  owns        : ∀ e ∈ owner, c.embedder = some e

-- The holder of the lock works on a storage.
structure Busy (st : StorageHandle) (c : Client) : Prop extends Stack c where
  storage     : c.storage = some st
  connections : c.Connects [st.conn]

theorem Idle.opening (h : c.Idle) : c.Opening none [] :=
  { h with owns := fun _ he => by cases he }

theorem Opening.idle (h : c.Opening owner []) : c.Idle :=
  { h with }

-- A step that writes nothing down.
theorem Extends.of_log_eq (h : c.Safe) (hl : c'.log = c.log)
    (hc : .interrupted ∉ c'.log → c'.connections.length ≤ 1)
    (hs : ∀ st ∈ c'.storage, ∀ e ∈ st.embedder, c'.embedder = some e ∧ e.id ∉ c'.closed)
    (hh : c.storage.isSome → c'.embedder = c.embedder ∧ c'.closed = c.closed) : Extends m c c' where
  safe          := ⟨hc, hs, hl ▸ h.newer⟩
  log           := hl ▸ List.prefix_rfl
  written _ _ h := .inl (hl ▸ h)
  held          := hh

-- A step that writes an event down.
theorem Extends.of_event (h : c.Safe) (hl : c'.log = c.log ++ [e]) (hn : ∀ e' ∈ c.log, e'.Newer e)
    (hw : ∀ b v, e = .refreshed b v → v ≤ m)
    (hc : .interrupted ∉ c'.log → c'.connections.length ≤ 1)
    (hs : ∀ st ∈ c'.storage, ∀ e ∈ st.embedder, c'.embedder = some e ∧ e.id ∉ c'.closed)
    (hh : c.storage.isSome → c'.embedder = c.embedder ∧ c'.closed = c.closed) : Extends m c c' where
  safe := by
    refine ⟨hc, hs, ?_⟩
    rw [hl, List.pairwise_append]
    refine ⟨h.newer, List.pairwise_singleton _ _, fun e' he' e'' he'' => ?_⟩
    rw [List.mem_singleton.mp he'']
    exact hn e' he'
  log  := ⟨[e], hl.symm⟩
  held := hh
  written b v hm := by
    rw [hl] at hm
    obtain hm | hm := List.mem_append.mp hm
    · exact .inl hm
    · exact .inr (hw b v (List.mem_singleton.mp hm).symm)

-- Before and after, no storage is open.
theorem Extends.of_none (h : c.Safe) (hs : c.storage = none) (hs' : c'.storage = none)
    (hl : c'.log = c.log) (hc : c'.Connects conns) (hn : conns.length ≤ 1) : Extends m c c' := by
  refine .of_log_eq h hl (fun hi => ?_) ?_ ?_
  · rw [hc hi]
    exact hn
  · rw [hs']
    exact fun _ hst => by cases hst
  · rw [hs]
    exact fun hsome => by cases hsome

theorem Stack.append (h : c.Stack) (he : ∀ v, e = .refreshed true v → ∀ e ∈ c.embedder,
    v ≤ e.settings.version) (hd : ∀ b v, e = .refreshed b v → ∀ d ∈ c.distiller,
    v ≤ d.settings.version) : Stack { c with log := c.log ++ [e] } where
  embedder e' he' := by
    obtain ⟨hclosed, hfresh, hfrom⟩ := h.embedder e' he'
    refine ⟨hclosed, hfresh, fun v hv => ?_⟩
    obtain hv | hv := List.mem_append.mp hv
    · exact hfrom v hv
    · exact he v (List.mem_singleton.mp hv).symm e' he'
  distiller d' hd' b v hv := by
    obtain hv | hv := List.mem_append.mp hv
    · exact h.distiller d' hd' b v hv
    · exact hd b v (List.mem_singleton.mp hv).symm d' hd'
  closed := h.closed
  pair   := h.pair

theorem Connects.append (h : c.Connects conns) : Connects { c with log := c.log ++ [e] } conns :=
  fun hi => h fun hm => hi (List.mem_append_left _ hm)

-- After an interruption, any connections may be open.
theorem connects_of_interrupted (h : .interrupted ∈ c.log) : c.Connects conns :=
  fun hi => (hi h).elim

end Client

namespace Work

open Instance Routine Client

variable {k m : Nat} {owner : Option EmbedderHandle} {distiller : Option Distiller}
variable {mode : AccessMode} {wipe : Bool} {retries awaits : Nat} {st : StorageHandle}
variable {settings : Settings}

section Stack

-- The stack of which an embedder with these settings will be a part.
private structure Creating (settings : Settings) (c : Client) : Prop extends Idle c where
  missing : c.embedder = none
  recent  : c.DistillerFrom settings.version

-- Settings that have been read under the lock are not older than what is in effect.
private theorem guards_load {A : Client → Prop} : Guards k m A (read (·.file.load))
    fun r c => A c ∧ ∃ settings, r = .ok settings ∧
      c.DistillerFrom settings.version ∧ m ≤ settings.version :=
  Guards.read fun s hs => ⟨hs.client, s.file.load, rfl, fun b v hv => hs.sound.written b v hv, hs.written⟩

private theorem guards_newEmbedder : Guards k m (Creating settings) (newEmbedder settings)
    fun r c => Creating settings c ∧ ∀ e, r = .ok e →
      e.settings = settings ∧ e.id ∉ c.closed ∧ e.id < c.fresh := by
  refine Guards.act fun s o s' hs hu => ?_
  cases hu
  have h := hs.client
  refine ⟨_, rfl, .of_none hs.sound.safe h.storage h.storage rfl h.connections (by simp), ?_,
    fun e he => ?_⟩
  · exact {
      embedder e he := by rw [h.missing] at he; cases he
      distiller     := h.distiller
      closed i hc   := (h.closed i hc).trans (Nat.lt_succ_self _)
      pair          := h.pair
      storage       := h.storage
      connections   := h.connections
      missing       := h.missing
      recent        := h.recent }
  · cases he
    exact ⟨rfl, fun hc => (h.closed _ hc).ne rfl, Nat.lt_succ_self _⟩

private theorem guards_createEmbedder : Guards k m (Creating settings) (createEmbedder settings)
    fun r c => Creating settings c ∧ ∀ e, r = .ok e →
      e.settings = settings ∧ e.id ∉ c.closed ∧ e.id < c.fresh := by
  unfold createEmbedder
  dsimp only
  split
  case isTrue => exact Guards.pre Guards.done fun c h => ⟨h, fun e he => by cases he⟩
  case isFalse =>
    split
    case isTrue =>
      exact Guards.bind (Guards.await (B := fun _ => Creating settings) fun _ _ => id)
        (fun _ => guards_newEmbedder) fun _ _ h => ⟨h, fun e he => by cases he⟩
    case isFalse => exact guards_newEmbedder

private theorem guards_createStack : Guards k m (fun c => c.Idle ∧ c.embedder = none) createStack
    fun r c => c.Idle ∧ ∀ stack, r = .ok stack → Creating stack.2.settings c ∧
      stack.1.settings = stack.2.settings ∧ stack.1.id ∉ c.closed ∧ stack.1.id < c.fresh := by
  refine Guards.bind guards_load (fun settings => ?_) fun _ c h => ⟨h.left.left, fun _ he => by cases he⟩
  refine Guards.pre (A := Creating settings) ?_ fun c ⟨h, _, he, hfrom, _⟩ =>
    { h.left with missing := h.right, recent := Except.ok.inj he ▸ hfrom }
  refine Guards.bind guards_createEmbedder (fun e => ?_)
    fun _ c h => ⟨h.left.toIdle, fun _ he => by cases he⟩
  refine Guards.pre Guards.done fun c ⟨hc, he⟩ => ⟨hc.toIdle, fun stack hs => ?_⟩
  cases hs
  exact ⟨hc, he e rfl⟩

theorem guards_ensureStack : Guards k m Idle ensureStack fun _ c => c.Idle := by
  refine Guards.bind (Guards.read (B := fun r c => c.Idle ∧ r = .ok c.embedder)
    fun s hs => ⟨hs.client, rfl⟩) (fun found => ?_) fun _ c h => h.left
  cases found
  case some e => exact Guards.pre Guards.done fun c h => h.left
  case none =>
    refine Guards.pre (A := fun c => c.Idle ∧ c.embedder = none) ?_
      fun c h => ⟨h.left, (Except.ok.inj h.right).symm⟩
    refine Guards.bind guards_createStack (fun stack => ?_) fun _ c h => h.left
    refine Guards.update fun c hs h => ?_
    obtain ⟨hc, he, hclosed, hfresh⟩ := h.right stack rfl
    refine ⟨.of_none hs hc.storage hc.storage rfl hc.connections (by simp), ?_⟩
    exact {
      embedder e' he' := by cases he'; exact ⟨hclosed, hfresh, he ▸ hc.recent.embedderFrom⟩
      distiller d' hd' := by cases hd'; exact hc.recent
      closed           := hc.closed
      pair h           := by cases h
      storage          := hc.storage
      connections      := hc.connections }

-- The object while its stack is dropped, which no storage uses.
private structure Dropping (c : Client) : Prop where
  storage     : c.storage = none
  connections : c.Connects []
  closed      : ∀ i ∈ c.closed, i < c.fresh

private theorem guards_forgetRest : Guards k m (fun c => Dropping c ∧ c.embedder = none)
    (update fun c => { c with parser := false, distiller := none })
    fun _ c => c.Idle ∧ c.embedder = none ∧ c.distiller = none := by
  refine Guards.update fun c hs h => ?_
  obtain ⟨hc, hn⟩ := h
  refine ⟨.of_none hs hc.storage hc.storage rfl hc.connections (by simp), ?_, hn, rfl⟩
  exact {
    embedder e he  := by rw [hn] at he; cases he
    distiller d hd := by cases hd
    closed         := hc.closed
    pair _         := rfl
    storage        := hc.storage
    connections    := hc.connections }

theorem guards_dropStack : Guards k m Idle dropStack
    fun _ c => c.Idle ∧ c.embedder = none ∧ c.distiller = none := by
  refine Guards.bind (Guards.read (B := fun r c => c.Idle ∧ r = .ok c.embedder)
    fun s hs => ⟨hs.client, rfl⟩) (fun found => ?_) fun _ c h => by cases h.right
  cases found
  case none =>
    exact Guards.pre guards_forgetRest fun c ⟨h, he⟩ =>
      ⟨⟨h.storage, h.connections, h.closed⟩, (Except.ok.inj he).symm⟩
  case some e =>
    refine Guards.bind (B := fun r c => r = .ok () ∧ Dropping c) ?_ (fun _ => ?_)
      fun _ _ h => by cases h.left
    · refine Guards.update fun c hs ⟨h, he⟩ => ?_
      have hfresh := (h.embedder e (Except.ok.inj he).symm).right.left
      refine ⟨.of_none hs h.storage h.storage rfl h.connections (by simp), rfl, h.storage,
        h.connections, fun i hi => ?_⟩
      obtain rfl | hi := List.mem_cons.mp hi
      · exact hfresh
      · exact h.closed i hi
    · refine Guards.bind (B := fun r c => r = .ok () ∧ Dropping c ∧ c.embedder = none) ?_
        (fun _ => Guards.pre guards_forgetRest fun _ => And.right) fun _ _ h => by cases h.left
      refine Guards.update fun c hs ⟨_, h⟩ => ?_
      exact ⟨.of_none hs h.storage h.storage rfl h.connections (by simp), rfl,
        ⟨h.storage, h.connections, h.closed⟩, rfl⟩

-- After a request for other settings, nothing that is in use is older than the file.
theorem guards_refreshDistiller {embedding : Bool} : Guards k m
    (fun c => c.Idle ∧ (embedding → c.embedder = none)) refreshDistiller
    fun _ c => c.Idle ∧ (embedding → c.embedder = none) ∧ ∀ d ∈ c.distiller, m ≤ d.settings.version := by
  refine Guards.bind (Guards.read (B := fun r c => (c.Idle ∧ (embedding → c.embedder = none)) ∧
    r = .ok c.distiller) fun s hs => ⟨hs.client, rfl⟩) (fun found => ?_) fun _ c h => by cases h.right
  cases found
  case none =>
    refine Guards.pre Guards.done fun c ⟨⟨h, he⟩, hd⟩ => ⟨h, he, fun d hd' => ?_⟩
    rw [←Except.ok.inj hd] at hd'
    cases hd'
  case some d =>
    refine Guards.bind guards_load (fun settings => ?_) fun _ c ⟨_, _, h, _⟩ => by cases h
    refine Guards.update fun c hs ⟨⟨⟨h, hn⟩, hd⟩, _, hl, hfrom, hm⟩ => ?_
    cases hl
    have he : c.embedder ≠ none := fun hn => by cases hd.trans (congrArg _ (h.pair hn))
    refine ⟨.of_none hs h.storage h.storage rfl h.connections (by simp), ?_, ?_, fun d' hd' => ?_⟩
    · exact {
        embedder       := h.embedder
        distiller d hd := by cases hd; exact hfrom
        closed         := h.closed
        pair hnone     := (he hnone).elim
        storage        := h.storage
        connections    := h.connections }
    · exact hn
    · cases hd'
      exact hm

private theorem guards_refreshed {embedding : Bool} : Guards k m
    (fun c => c.Idle ∧ (embedding → c.embedder = none) ∧ ∀ d ∈ c.distiller, m ≤ d.settings.version)
    (record (.refreshed embedding m)) fun _ c => c.Idle ∧ .refreshed embedding m ∈ c.log := by
  refine Guards.update fun c hs ⟨h, he, hd⟩ => ?_
  have hconn : Connects { c with log := c.log ++ [.refreshed embedding m] } [] := h.connections.append
  refine ⟨.of_event hs rfl (fun e' _ => ?_) (fun b v hv => ?_) (fun hi => ?_) ?_ fun _ => ⟨rfl, rfl⟩, ?_, ?_⟩
  · cases e' <;> exact trivial
  · cases hv
    exact le_rfl
  · rw [hconn hi]
    exact Nat.zero_le _
  · exact hs.storage
  · refine { h.toStack.append (fun v hv e' he' => ?_) fun b v hv d' hd' => ?_ with
      storage     := h.storage
      connections := hconn }
    · cases hv
      rw [he rfl] at he'
      cases he'
    · cases hv
      exact hd d' hd'
  · exact List.mem_append_right _ (List.mem_singleton_self _)

-- What a request for other settings leaves in effect when it is done.
theorem invalidateStackAfterConfig_wp {embedding distill : Bool} {s : Instance} (hs : Free k m s) :
    (invalidateStackAfterConfig k embedding distill m).wp (rely k) (guarantee k) (fun r s => Free k m s ∧
      ∀ a, r = .ok a → embedding ∨ distill → .refreshed embedding m ∈ s.client.log) s := by
  unfold invalidateStackAfterConfig
  split
  case isTrue h =>
    refine wp_done fun s' hr => ⟨hs.rely hr, fun _ _ hf => ?_⟩
    obtain hf | hf := hf
    · exact (h.left hf).elim
    · exact (h.right hf).elim
  case isFalse h =>
    refine wp_mono (withLock_wp (E := fun _ l => .refreshed embedding m ∈ l)
      (fun _ _ _ hl hm => hl.subset hm) hs ?_) fun r s h => ⟨h.left, fun a ha _ => h.right a ha⟩
    refine Guards.bind (Guards.read (B := fun r c => c.Idle ∧ r = .ok c.embedder)
      fun s hs => ⟨hs.client, rfl⟩) (fun found => ?_) fun _ c h => ⟨h.left, fun a ha => by cases ha⟩
    dsimp only
    have hlast : Guards k m
        (fun c => c.Idle ∧ (embedding → c.embedder = none) ∧ ∀ d ∈ c.distiller, m ≤ d.settings.version)
        (record (.refreshed embedding m))
        fun r c => c.Idle ∧ ∀ a, r = .ok a → .refreshed embedding m ∈ c.log :=
      Guards.post guards_refreshed fun r c h => ⟨h.left, fun _ _ => h.right⟩
    split
    case isTrue =>
      refine Guards.pre (A := Idle) ?_ fun c h => h.left
      refine Guards.bind guards_dropStack (fun _ => Guards.pre hlast fun c ⟨h, he, hd⟩ => ?_)
        fun _ c h => ⟨h.left, fun a ha => by cases ha⟩
      exact ⟨h, fun _ => he, fun d hm => by rw [hd] at hm; cases hm⟩
    case isFalse hsome =>
      have hn : ∀ c : Client, (.ok found : Except Interrupt _) = .ok c.embedder → embedding → c.embedder = none := by
        intro c hc he
        cases hc
        simpa [he] using hsome
      split
      case isTrue =>
        refine Guards.pre (A := fun c => c.Idle ∧ (embedding → c.embedder = none)) ?_
          fun c hc => ⟨hc.left, hn c hc.right⟩
        exact Guards.bind guards_refreshDistiller (fun _ => hlast)
          fun _ c h => ⟨h.left, fun a ha => by cases ha⟩
      case isFalse hd =>
        have he : embedding := by
          by_contra he
          exact h ⟨he, hd⟩
        refine Guards.pre hlast fun c hc => ⟨hc.left, hn c hc.right, fun d hm => ?_⟩
        rw [hc.left.pair (hn c hc.right he)] at hm
        cases hm

end Stack

section Connections

variable {conns conns' : List Nat}

-- The stack stays of use when new settings are neither created nor put into effect.
private theorem Stack.of_fields {c : Client} (c' : Client) (h : c.Stack) (he : c'.embedder = c.embedder)
    (hd : c'.distiller = c.distiller) (hc : c'.closed = c.closed) (hf : c.fresh ≤ c'.fresh)
    (hl : ∀ b v, .refreshed b v ∈ c'.log → .refreshed b v ∈ c.log) : c'.Stack where
  embedder e hm := by
    obtain ⟨hclosed, hfresh, hfrom⟩ := h.embedder e (he ▸ hm)
    exact ⟨hc ▸ hclosed, hfresh.trans_le hf, fun v hv => hfrom v (hl _ v hv)⟩
  distiller d hm b v hv := h.distiller d (hd ▸ hm) b v (hl b v hv)
  closed i hi           := (h.closed i (hc ▸ hi)).trans_le hf
  pair hn               := hd.trans (h.pair (he ▸ hn))

private theorem mem_refreshed_of_append {l : List Event} {e : Event} {b : Bool} {v : Nat}
    (he : ∀ b v, e ≠ .refreshed b v) (h : .refreshed b v ∈ l ++ [e]) : .refreshed b v ∈ l := by
  obtain h | h := List.mem_append.mp h
  · exact h
  · exact (he b v (List.mem_singleton.mp h).symm).elim

private theorem Connects.erase {c : Client} {conn : Nat} (h : c.Connects [conn]) :
    Connects { c with connections := c.connections.erase conn } [] := by
  intro hi
  show c.connections.erase conn = []
  rw [h hi]
  exact List.erase_cons_head conn []

-- A call that is cancelled while it opens a connection writes that down.
private theorem Opening.interrupted {n : Nat} {c : Client} (l : List Nat) (hs : c.Safe)
    (h : c.Opening owner conns) (hn : c.fresh ≤ n) :
    c.Extends m { c with connections := l, fresh := n, log := c.log ++ [.interrupted] } ∧
      ∀ conns', Opening owner conns'
        { c with connections := l, fresh := n, log := c.log ++ [.interrupted] } := by
  have hi : Event.interrupted ∈ c.log ++ [.interrupted] :=
    List.mem_append_right _ (List.mem_singleton_self _)
  refine ⟨.of_event hs rfl (fun e' _ => ?_) (fun b v he => by cases he) (fun hi' => (hi' hi).elim) hs.storage
    fun _ => ⟨rfl, rfl⟩, fun conns' => ?_⟩
  · cases e' <;> exact trivial
  · exact {
      toStack     := Stack.of_fields _ h.toStack rfl rfl rfl hn fun _ _ =>
        mem_refreshed_of_append fun b v he => by cases he
      storage     := h.storage
      connections := connects_of_interrupted hi
      owns        := h.owns }

private theorem guards_connect : Guards k m (Opening owner []) connect fun r c =>
    (∀ conn, r = .ok (.connected, conn) → c.Opening owner [conn]) ∧
      ((∀ conn, r ≠ .ok (.connected, conn)) → c.Opening owner []) := by
  refine Guards.act fun s o s' hs hu => ?_
  cases hu
  have h := hs.client
  refine ⟨_, rfl, ?_⟩
  cases hc : o.cancelled
  case true =>
    simp only [if_true]
    split
    case isTrue =>
      obtain ⟨he, hopen⟩ := Opening.interrupted (m := m) (s.client.connections ++ [s.client.fresh])
        hs.sound.safe h (Nat.le_succ _)
      exact ⟨he, fun conn hr => (by cases hr), fun _ => hopen []⟩
    case isFalse =>
      obtain ⟨he, hopen⟩ := Opening.interrupted (m := m) s.client.connections hs.sound.safe h le_rfl
      exact ⟨he, fun conn hr => (by cases hr), fun _ => hopen []⟩
  case false =>
    simp only [Bool.false_eq_true, if_false]
    split
    case isTrue hk =>
      have hconn : Connects { s.client with
          connections := s.client.connections ++ [s.client.fresh], fresh := s.client.fresh + 1 }
          [s.client.fresh] := by
        intro hi
        show s.client.connections ++ [s.client.fresh] = _
        rw [h.connections hi]
        rfl
      refine ⟨.of_none hs.sound.safe h.storage h.storage rfl hconn le_rfl, fun conn hr => ?_, fun hr => ?_⟩
      · obtain rfl : s.client.fresh = conn := congrArg Prod.snd (Except.ok.inj hr)
        exact {
          toStack     := Stack.of_fields _ h.toStack rfl rfl rfl (Nat.le_succ _) fun _ _ => id
          storage     := h.storage
          connections := hconn
          owns        := h.owns }
      · exact (hr s.client.fresh (by rw [hk])).elim
    case isFalse hk =>
      refine ⟨.refl hs.sound.safe, fun conn hr => ?_, fun _ => h⟩
      exact (hk (congrArg Prod.fst (Except.ok.inj hr))).elim

-- What an attempt to open a connection leads to.
private def Connected (owner : Option EmbedderHandle) (r : Except Interrupt Nat) (c : Client) : Prop :=
  (∀ conn, r = .ok conn → c.Opening owner [conn]) ∧ ∀ e, r = .error e → c.Opening owner []

private theorem connected_error {e : Interrupt} {c : Client} (h : c.Opening owner []) :
    Connected owner (.error e) c :=
  ⟨fun _ hr => (by cases hr), fun _ _ => h⟩

theorem guards_connectWithRetry :
    Guards k m (Opening owner []) (connectWithRetry retries) (Connected owner) := by
  have hok : ∀ conn, Guards k m (Opening owner [conn]) (pure conn) (Connected owner) := fun conn =>
    Guards.pre Guards.done fun c h => ⟨fun _ hr => by cases hr; exact h, fun _ hr => by cases hr⟩
  have hfail : ∀ e, Guards k m (Opening owner []) (throw e) (Connected owner) := fun e =>
    Guards.pre Guards.done fun c h => connected_error h
  induction retries
  all_goals
    unfold connectWithRetry
    refine Guards.bind guards_connect (fun found => ?_)
      fun e c h => connected_error (h.right fun _ hr => by cases hr)
    obtain ⟨connecting, conn⟩ := found
  case zero =>
    cases connecting
    case connected  => exact Guards.pre (hok conn) fun c h => h.left conn rfl
    case busy       => exact Guards.pre (hfail _) fun c h => h.right fun _ hr => by cases hr
    case failed msg => exact Guards.pre (hfail _) fun c h => h.right fun _ hr => by cases hr
  case succ n ih =>
    cases connecting
    case connected  => exact Guards.pre (hok conn) fun c h => h.left conn rfl
    case failed msg => exact Guards.pre (hfail _) fun c h => h.right fun _ hr => by cases hr
    case busy =>
      refine Guards.pre (A := Opening owner []) ?_ fun c h => h.right fun _ hr => by cases hr
      exact Guards.bind (Guards.await (B := fun _ => Opening owner []) fun _ _ => id) (fun _ => ih)
        fun _ _ => connected_error

private theorem guards_awaitOpening {conn : Nat} : Guards k m (Opening owner [conn]) awaitOpening
    fun r c => c.Opening owner [conn] ∧ (r = .error .cancelled → c.Opening owner []) := by
  refine Guards.act fun s o s' hs hu => ?_
  have h := hs.client
  cases hc : o.cancelled <;> simp only [hc, if_true, Bool.false_eq_true, if_false] at hu <;> cases hu
  case true =>
    obtain ⟨he, hopen⟩ := Opening.interrupted (m := m) s.client.connections hs.sound.safe h le_rfl
    exact ⟨_, rfl, he, hopen [conn], fun _ => hopen []⟩
  case false =>
    refine ⟨_, rfl, .refl hs.sound.safe, h, fun hr => ?_⟩
    simp only [outcome, Outside.interrupt, hc, Bool.false_eq_true, if_false] at hr
    cases hx : o.raised <;> rw [hx] at hr <;> cases hr

private theorem guards_closeConnection {conn : Nat} : Guards k m (Opening owner [conn])
    (closeConnection conn) fun _ => Opening owner [] := by
  refine Guards.update fun c hs h => ?_
  have hconn := Connects.erase h.connections
  refine ⟨.of_none hs h.storage h.storage rfl hconn (Nat.zero_le _), ?_⟩
  exact {
    toStack     := Stack.of_fields _ h.toStack rfl rfl rfl le_rfl fun _ _ => id
    storage     := h.storage
    connections := hconn
    owns        := h.owns }

-- What opening a storage leads to.
private def Opened (owner : Option EmbedderHandle) (r : Except Interrupt StorageHandle) (c : Client) :
    Prop :=
  (∀ st, r = .ok st → st.embedder = owner ∧ c.Opening owner [st.conn]) ∧
    ∀ e, r = .error e → c.Opening owner []

private theorem opened_error {e : Interrupt} {c : Client} (h : c.Opening owner []) :
    Opened owner (.error e) c :=
  ⟨fun _ hr => (by cases hr), fun _ _ => h⟩

private theorem guards_finishOpening {conn : Nat} :
    Guards k m (Opening owner [conn]) (finishOpening owner mode conn) fun r c =>
      c.Opening owner [conn] ∧ (∀ st, r = .ok st → st.embedder = owner ∧ st.conn = conn) ∧
        (r = .error .cancelled → c.Opening owner []) := by
  have herror : ∀ (e : Interrupt) (c : Client), c.Opening owner [conn] ∧
      ((.error e : Except Interrupt Unit) = .error .cancelled → c.Opening owner []) →
      c.Opening owner [conn] ∧ (∀ st, (.error e : Except Interrupt StorageHandle) = .ok st →
        st.embedder = owner ∧ st.conn = conn) ∧
        ((.error e : Except Interrupt StorageHandle) = .error .cancelled → c.Opening owner []) := by
    intro e c h
    refine ⟨h.left, fun _ hr => (by cases hr), fun hr => ?_⟩
    cases hr
    exact h.right rfl
  have hlast : Guards k m (Opening owner [conn]) (do
      awaitOpening
      pure { conn := conn, embedder := owner, mode := mode } : Work StorageHandle) fun r c =>
      c.Opening owner [conn] ∧ (∀ st, r = .ok st → st.embedder = owner ∧ st.conn = conn) ∧
        (r = .error .cancelled → c.Opening owner []) := by
    refine Guards.bind guards_awaitOpening (fun _ => ?_) herror
    exact Guards.pre Guards.done fun c h => ⟨h.left, fun _ hr => (by cases hr; exact ⟨rfl, rfl⟩),
      fun hr => by cases hr⟩
  unfold finishOpening
  dsimp only
  split
  case isFalse => exact hlast
  case isTrue  => exact Guards.bind guards_awaitOpening (fun _ => Guards.pre hlast fun _ h => h.left) herror

-- The handler closes the connection. After an interruption it may be open.
private theorem guards_abandon {conn : Nat} {e : Interrupt} : Guards k m
    (fun c => c.Opening owner [conn] ∧ (e = .cancelled → c.Opening owner [])) (abandon conn e)
    (Opened owner) := by
  cases e
  case exn e =>
    refine Guards.pre (A := Opening owner [conn]) ?_ fun c h => h.left
    exact Guards.bind guards_closeConnection (fun _ => Guards.pre Guards.done fun c h => opened_error h)
      fun _ _ h => opened_error h
  case cancelled => exact Guards.pre Guards.done fun c h => opened_error (h.right rfl)

theorem guards_openDbConnection :
    Guards k m (Opening owner []) (openDbConnection owner mode wipe retries) (Opened owner) := by
  have hfail : ∀ {e : Interrupt} {t : Unit → Work StorageHandle},
      Guards k m (Opening owner []) (throw e >>= t) (Opened owner) :=
    Guards.pre Guards.done fun c h => opened_error h
  have hconnect : Guards k m (Opening owner []) (do
      let conn ← connectWithRetry retries
      (finishOpening owner mode conn).handle (abandon conn)) (Opened owner) := by
    refine Guards.bind guards_connectWithRetry (fun conn => ?_) fun e c h => opened_error (h.right e rfl)
    refine Guards.pre (A := Opening owner [conn]) ?_ fun c h => h.left conn rfl
    refine Guards.handle guards_finishOpening (fun st c h => ?_) fun e => ?_
    · obtain ⟨he, hconn⟩ := h.right.left st rfl
      exact ⟨fun _ hr => (by cases hr; exact ⟨he, hconn ▸ h.left⟩), fun _ hr => by cases hr⟩
    · exact Guards.pre guards_abandon fun c h => ⟨h.left, fun he => h.right.right (he ▸ rfl)⟩
  have hexists : Guards k m (Opening owner []) checkExists fun _ => Opening owner [] := by
    refine Guards.act fun s o s' hs hu => ?_
    cases hu
    exact ⟨_, rfl, .refl hs.sound.safe, hs.client⟩
  unfold openDbConnection
  dsimp only
  split
  case isTrue  => exact hfail
  case isFalse =>
    split
    case isTrue  => exact Guards.bind hexists (fun _ => hconnect) fun _ _ h => opened_error h
    case isFalse =>
      split
      case isTrue  => exact hfail
      case isFalse => exact hconnect

end Connections

section Operations

private theorem guards_closeUsed : Guards k m (Busy st) (do closeStorage st; setStorage none)
    fun r c => r = .ok () ∧ c.Idle := by
  refine Guards.bind (B := fun r c => r = .ok () ∧ c.Stack ∧ c.Connects []) ?_ (fun _ => ?_)
    fun _ _ h => by cases h.left
  · unfold closeStorage closeConnection
    refine Guards.update fun c hs h => ?_
    have hconn := Connects.erase h.connections
    refine ⟨.of_log_eq hs rfl (fun hi => ?_) hs.storage fun _ => ⟨rfl, rfl⟩, rfl,
      Stack.of_fields _ h.toStack rfl rfl rfl le_rfl fun _ _ => id, hconn⟩
    rw [hconn hi]
    exact Nat.zero_le _
  · refine Guards.update fun c hs ⟨_, h, hconn⟩ => ⟨.of_log_eq hs rfl (fun hi => ?_) (fun _ he => ?_)
      fun _ => ⟨rfl, rfl⟩, rfl, ?_⟩
    · rw [hconn hi]
      exact Nat.zero_le _
    · cases he
    · exact {
        toStack     := Stack.of_fields _ h rfl rfl rfl le_rfl fun _ _ => id
        storage     := rfl
        connections := hconn }

-- An opened storage is used, closed and forgotten, also when its use fails.
theorem guards_useStorage {body : StorageHandle → Work Unit}
    (hb : Guards k m (Busy st) (body st) fun _ => Busy st) :
    Guards k m (Opening st.embedder [st.conn]) (useStorage st body) fun _ => Idle := by
  refine Guards.bind (B := fun r c => r = .ok () ∧ c.Busy st) ?_ (fun _ => ?_) fun _ _ h => by cases h.left
  · refine Guards.update fun c hs h => ?_
    have hconn : Connects { c with storage := some st } [st.conn] := h.connections
    refine ⟨.of_log_eq hs rfl (fun hi => ?_) ?_ fun hsome => ?_, rfl, ?_⟩
    · rw [hconn hi]
      exact le_rfl
    · rintro _ ⟨⟩ e he
      have hown := h.owns e he
      exact ⟨hown, (h.embedder e hown).left⟩
    · rw [h.storage] at hsome
      cases hsome
    · exact {
        toStack     := Stack.of_fields _ h.toStack rfl rfl rfl le_rfl fun _ _ => id
        storage     := rfl
        connections := hconn }
  · exact Guards.andFinally (Guards.pre hb fun c h => h.right) fun _ => guards_closeUsed

-- What is used is not older than what is in effect.
theorem guards_perform : Guards k m
    (fun c => c.Busy st ∧ ∀ d ∈ distiller, c.DistillerFrom d.settings.version)
    (perform k st.embedder distiller awaits) fun _ => Busy st := by
  induction awaits
  case zero => exact Guards.pre Guards.done fun c h => h.left
  case succ n ih =>
    refine Guards.bind (B := fun r c => r = .ok () ∧ c.Busy st ∧
      ∀ d ∈ distiller, c.DistillerFrom d.settings.version) ?_ (fun _ => ?_) fun _ _ h => by cases h.left
    · refine Guards.update fun c hs ⟨h, hd⟩ => ?_
      have hconn : Connects { c with log := c.log ++ [.used k st.embedder distiller] } [st.conn] :=
        h.connections.append
      have hlog : ∀ b v, .refreshed b v ∈ c.log ++ [.used k st.embedder distiller] →
          .refreshed b v ∈ c.log := fun b v => mem_refreshed_of_append fun b v he => by cases he
      refine ⟨.of_event hs rfl (fun e' he' => ?_) (fun b v he => by cases he) (fun hi => ?_) hs.storage
        fun _ => ⟨rfl, rfl⟩, rfl, ?_, fun d hm b v hv => hd d hm b v (hlog b v hv)⟩
      · cases e'
        case refreshed embedding v =>
          refine ⟨fun hembedding e he => ?_, fun d hm => hd d hm embedding v he'⟩
          obtain ⟨hown, _⟩ := hs.storage st h.storage e he
          subst hembedding
          exact (h.embedder e hown).right.right v he'
        all_goals exact trivial
      · rw [hconn hi]
        exact le_rfl
      · exact {
          toStack     := Stack.of_fields _ h.toStack rfl rfl rfl le_rfl hlog
          storage     := h.storage
          connections := hconn }
    · refine Guards.pre (A := fun c => c.Busy st ∧ ∀ d ∈ distiller, c.DistillerFrom d.settings.version) ?_
        fun c h => h.right
      exact Guards.bind (Guards.await (B := fun _ c => c.Busy st ∧ ∀ d ∈ distiller,
        c.DistillerFrom d.settings.version) fun _ _ => id) (fun _ => ih) fun _ _ h => h.left

theorem guards_performIndexing :
    Guards k m (Busy st) (performIndexing k awaits st) fun _ => Busy st := by
  refine Guards.bind (Guards.read (B := fun _ => Busy st) fun s hs => hs.client) (fun parser => ?_)
    fun _ _ => id
  refine Guards.bind (Guards.read (B := fun r c => c.Busy st ∧ r = .ok c.distiller)
    fun s hs => ⟨hs.client, rfl⟩) (fun distiller => ?_) fun _ _ h => h.left
  dsimp only
  split
  case isTrue  => exact Guards.pre Guards.done fun c h => h.left
  case isFalse =>
    refine Guards.pre guards_perform fun c ⟨h, he⟩ => ⟨h, fun d hd => h.distiller d ?_⟩
    rw [←Except.ok.inj he]
    exact hd

private theorem guards_openAndUse {body : StorageHandle → Work Unit}
    (hb : ∀ st, Guards k m (Busy st) (body st) fun _ => Busy st) :
    Guards k m (Opening owner []) (do
      let storage ← openDbConnection owner mode wipe retries
      useStorage storage body) fun _ => Idle := by
  refine Guards.bind guards_openDbConnection (fun st => ?_) fun e _ h => (h.right e rfl).idle
  refine Guards.pre (guards_useStorage (hb st)) fun c h => ?_
  obtain ⟨he, hopen⟩ := h.left st rfl
  rw [he]
  exact hopen

-- The lock is free again after a use of the storage.
theorem withStorage_wp {body : StorageHandle → Work Unit} {s : Instance} (hs : Free k 0 s)
    (hb : ∀ st, Guards k 0 (Busy st) (body st) fun _ => Busy st) :
    (withStorage k mode wipe retries body).wp (rely k) (guarantee k) (fun _ s => Free k 0 s) s := by
  refine wp_mono (withLock_wp (E := fun _ _ => True) (fun _ _ _ _ => id) hs ?_) fun _ _ h => h.left
  refine Guards.post (B := fun _ => Idle) ?_ fun _ _ h => ⟨h, fun _ _ => trivial⟩
  refine Guards.bind guards_ensureStack (fun _ => ?_) fun _ _ => id
  refine Guards.bind (Guards.read (B := fun r c => c.Idle ∧ r = .ok c.embedder)
    fun s hs => ⟨hs.client, rfl⟩) (fun found => ?_) fun _ _ h => h.left
  cases found
  case none   => exact Guards.pre Guards.done fun c h => h.left
  case some e =>
    refine Guards.pre (guards_openAndUse hb) fun c ⟨h, he⟩ => { h with owns := fun e' he' => ?_ }
    cases he'
    exact (Except.ok.inj he).symm

theorem withMetadata_wp {body : StorageHandle → Work Unit} {s : Instance} (hs : Free k 0 s)
    (hb : ∀ st, Guards k 0 (Busy st) (body st) fun _ => Busy st) :
    (withLock k (withMetadata retries body)).wp (rely k) (guarantee k) (fun _ s => Free k 0 s) s := by
  refine wp_mono (withLock_wp (E := fun _ _ => True) (fun _ _ _ _ => id) hs ?_) fun _ _ h => h.left
  refine Guards.post (B := fun _ => Idle) ?_ fun _ _ h => ⟨h, fun _ _ => trivial⟩
  exact Guards.pre (guards_openAndUse hb) fun c h => h.opening

theorem close_wp {s : Instance} (hs : Free k 0 s) :
    (close k).wp (rely k) (guarantee k) (fun _ s => Free k 0 s) s := by
  refine wp_mono (withLock_wp (E := fun _ _ => True) (fun _ _ _ _ => id) hs ?_) fun _ _ h => h.left
  refine Guards.post (B := fun _ => Idle) ?_ fun _ _ h => ⟨h, fun _ _ => trivial⟩
  refine Guards.bind (Guards.read (B := fun r c => c.Idle ∧ r = .ok c.storage)
    fun s hs => ⟨hs.client, rfl⟩) (fun found => ?_) fun _ _ h => h.left
  have hdrop : Guards k 0 Idle dropStack fun _ => Idle := Guards.post guards_dropStack fun _ _ h => h.left
  cases found
  case none    => exact Guards.pre hdrop fun c h => h.left
  case some st =>
    -- An idle object has no storage.
    intro s hs
    cases (Except.ok.inj hs.client.right).trans hs.client.left.storage

theorem runApi_wp {s : Instance} (hs : Free k m s) :
    (runApi awaits).wp (rely k) (guarantee k) (fun _ s => Free k m s) s := by
  induction awaits generalizing s
  case zero => exact wp_done fun s' hr => hs.rely hr
  case succ n ih =>
    refine wp_bind (P := fun _ s => Free k m s) ?_ (fun _ s h => ih h) fun _ _ => id
    intro s' hr o s'' hu
    cases hu
    exact ⟨guarantee_refl, fun _ hr' => (hs.rely hr).rely hr'⟩

-- The file of the settings is written without the lock.
theorem loadOrUpdateConfig_wp {request : ConfigRequest} {s : Instance} (hs : Free k 0 s) :
    (loadOrUpdateConfig request).wp (rely k) (guarantee k) (fun r s => Free k 0 s ∧
      ∀ a, r = .ok a → Free k a.2 s) s := by
  intro s' hr o s'' hu
  have h := hs.rely hr
  have hkept : ∀ {e}, guarantee k s' s' ∧ (done (.error e) : Work (DistillerConfig × Nat)).wp (rely k)
      (guarantee k) (fun r s => Free k 0 s ∧ ∀ a, r = .ok a → Free k a.2 s) s' :=
    ⟨guarantee_refl, fun _ hr' => ⟨h.rely hr', fun _ ha => by cases ha⟩⟩
  dsimp only at hu ⊢
  cases hx : o.raised <;> rw [hx] at hu <;> dsimp only at hu ⊢
  case some e =>
    cases hu
    exact hkept
  case none =>
    cases hl : s'.file.loadOrUpdateConfig request o.saving <;> rw [hl] at hu <;> dsimp only at hu ⊢
    case error e =>
      cases hu
      exact hkept
    case ok loaded =>
      obtain ⟨result, file, written⟩ := loaded
      cases hu
      have hv : s'.file.version ≤ file.version := (ConfigFile.loadOrUpdateConfig_version hl).left
      have hsound : s'.Sound → Sound { s' with file := file } := fun h =>
        ⟨h.safe, fun b v hm => (h.written b v hm).trans hv, h.idle⟩
      refine ⟨⟨fun j _ => ⟨fun hl => ⟨hl, rfl⟩, id, List.prefix_rfl, hv, hsound⟩, fun _ => ⟨rfl, rfl⟩⟩,
        fun s₁ hr₁ => ?_⟩
      have hfree : Free k file.version { s' with file := file } := ⟨h.lock, hsound h.sound, le_rfl⟩
      have hfree' := hfree.rely hr₁
      refine ⟨⟨hfree'.lock, hfree'.sound, Nat.zero_le _⟩, fun a ha => ?_⟩
      cases ha
      exact hfree'

theorem config_wp {request : ConfigRequest} {s : Instance} (hs : Free k 0 s) :
    (config k request).wp (rely k) (guarantee k) (fun r s => Free k 0 s ∧ ∀ a, r = .ok a →
      request.embeddingFieldsRequested ∨ request.distillFieldsRequested →
      .refreshed request.embeddingFieldsRequested a.2 ∈ s.client.log) s := by
  refine wp_bind (loadOrUpdateConfig_wp hs) (fun a s h => ?_) fun e s h => ⟨h.left, fun _ hr => by cases hr⟩
  have hfree : ∀ {m s}, Free k m s → Free k 0 s := fun h => ⟨h.lock, h.sound, Nat.zero_le _⟩
  refine wp_bind (invalidateStackAfterConfig_wp (h.right a rfl)) (fun _ s h => ?_)
    fun e s h => ⟨hfree h.left, fun _ hr => by cases hr⟩
  refine wp_done fun s' hr => ⟨(hfree h.left).rely hr, fun b hb hf => ?_⟩
  cases hb
  exact hr.right.right.left.subset (h.right () rfl hf)

-- What holds when the call has ended: a request for other settings has put them into effect.
def Answers (p : Operation) (k : Nat) (r : Except Interrupt Answer) (s : Instance) : Prop :=
  Free k 0 s ∧ ∀ request result v, p = .config request → r = .ok (.config result v) →
    request.embeddingFieldsRequested ∨ request.distillFieldsRequested →
    .refreshed request.embeddingFieldsRequested v ∈ s.client.log

theorem run_wp {p : Operation} {s : Instance} (hs : Free k 0 s) :
    (run p k).wp (rely k) (guarantee k) (Answers p k) s := by
  -- Calls without an answer.
  have hplain : ∀ {t : Work Unit}, (∀ request, p ≠ .config request) →
      t.wp (rely k) (guarantee k) (fun _ s => Free k 0 s) s →
      (t >>= fun _ => pure Answer.none).wp (rely k) (guarantee k) (Answers p k) s := by
    intro t hp ht
    refine wp_bind ht (fun _ s h => ?_) fun _ s h => ⟨h, fun _ _ _ hc => (hp _ hc).elim⟩
    exact wp_done fun s' hr => ⟨h.rely hr, fun _ _ _ hc => (hp _ hc).elim⟩
  have hbusy : ∀ st : StorageHandle, ∀ awaits, Guards k 0 (Busy st)
      (perform k st.embedder none awaits) fun _ => Busy st := fun st _ =>
    Guards.pre guards_perform fun c h => ⟨h, fun _ hd => by cases hd⟩
  cases p
  case sync path indexAll retries awaits =>
    refine hplain (fun _ => nofun) ?_
    unfold sync
    split
    case isTrue  => exact wp_done fun s' hr => hs.rely hr
    case isFalse => exact withStorage_wp hs fun st => guards_performIndexing
  case search retries awaits  => exact hplain (fun _ => nofun) (withStorage_wp hs fun st => hbusy st _)
  case rebuild retries awaits =>
    exact hplain (fun _ => nofun) (withStorage_wp hs fun st => guards_performIndexing)
  case api java retries awaits =>
    refine hplain (fun _ => nofun) ?_
    unfold api
    split
    case isTrue  => exact withMetadata_wp hs fun st => hbusy st _
    case isFalse => exact runApi_wp hs
  case config request =>
    refine wp_bind (config_wp hs) (fun a s h => ?_) fun e s h => ⟨h.left, fun _ _ _ _ hr => by cases hr⟩
    refine wp_done fun s' hr => ⟨h.left.rely hr, fun _ _ _ hp ha hf => ?_⟩
    cases hp
    cases ha
    exact hr.right.right.left.subset (h.right a rfl hf)
  case close => exact hplain (fun _ => nofun) (close_wp hs)

theorem rules : Calls.Rules run rely guarantee (fun k => Free k 0) Answers where
  compatible h hj := h.others _ hj
  keeps h hf      := hf.rely h
  runs            := run_wp

end Operations

end Work

-- What the calls on one object come to, in any state.
structure Lifecycle (c : Calls Operation Instance Outside Interrupt Answer) : Prop where
  single : .interrupted ∉ c.state.client.log → c.state.client.connections.length ≤ 1
  owned  : ∀ st ∈ c.state.client.storage, ∀ e ∈ st.embedder,
    c.state.client.embedder = some e ∧ e.id ∉ c.state.client.closed
  held   : ∀ c', Calls.Step Work.run c c' → c.state.client.storage.isSome →
    c'.state.client.embedder = c.state.client.embedder ∧ c'.state.client.closed = c.state.client.closed
  closed : (∀ t ∈ c.tasks, ∃ r, t.2 = .done r) → .interrupted ∉ c.state.client.log →
    c.state.client.connections = []
  recent : ∀ k request result v, c.Ended k (.config request) (.ok (.config result v)) →
    request.embeddingFieldsRequested ∨ request.distillFieldsRequested →
    ∀ c' l, Calls.Steps Work.run c c' → c'.state.client.log = c.state.client.log ++ l →
    ∀ j e d, .used j e d ∈ l → (request.embeddingFieldsRequested → ∀ e' ∈ e, v ≤ e'.settings.version) ∧
      ∀ d' ∈ d, v ≤ d'.settings.version

namespace Lifecycle

open Instance

variable {file : ConfigFile} {dbPath : String} {c c' : Calls Operation Instance Outside Interrupt Answer}

theorem create_free {k : Nat} : Free k 0 (Instance.create file dbPath) where
  lock  := nofun
  sound := {
    safe    := ⟨fun _ => Nat.zero_le _, fun _ h => (by cases h), .nil⟩
    written := fun _ _ h => (List.not_mem_nil h).elim
    idle    := fun _ => {
      embedder _ h  := by cases h
      distiller _ h := by cases h
      closed _ h    := (List.not_mem_nil h).elim
      pair _        := rfl
      storage       := rfl
      connections _ := rfl } }
  written := Nat.zero_le _

theorem good_of_steps (h : Calls.Steps Work.run (.init (.create file dbPath)) c) :
    Calls.Good rely guarantee (fun k => Free k 0) Work.Answers c :=
  (Calls.Good.init fun _ => create_free).steps Work.rules h

theorem sound_of_good (h : Calls.Good rely guarantee (fun k => Free k 0) Work.Answers c) : c.state.Sound :=
  (h.toCome _ le_rfl).sound

-- A call that has ended does not hold the lock, and neither does one that is still to come.
theorem lock_of_done (h : Calls.Good rely guarantee (fun k => Free k 0) Work.Answers c)
    (hd : ∀ t ∈ c.tasks, ∃ r, t.2 = .done r) : c.state.lock = none := by
  cases hl : c.state.lock
  case none   => rfl
  case some k =>
    exfalso
    by_cases hk : k < c.tasks.length
    case pos =>
      obtain ⟨r, hr⟩ := hd _ (List.getElem_mem hk)
      have he : c.Ended k (c.tasks[k]).1 r := by
        rw [Calls.Ended, List.getElem?_eq_getElem hk, ←hr]
      exact (h.ended he).left.lock hl
    case neg => exact (h.toCome k (Nat.le_of_not_lt hk)).lock hl

-- From the creation of the object on, whatever the calls are and however their steps are interleaved.
theorem of_steps (h : Calls.Steps Work.run (.init (.create file dbPath)) c) : Lifecycle c := by
  have hg := good_of_steps h
  have hs := sound_of_good hg
  refine ⟨hs.safe.connections, hs.safe.storage, fun c' hstep hst => ?_, fun hdone hi => ?_, ?_⟩
  · obtain he | ⟨k, hG⟩ := (hg.step Work.rules hstep).right
    · rw [he]
      exact ⟨rfl, rfl⟩
    · exact hG.held hst
  · exact (hs.idle (lock_of_done hg hdone)).connections hi
  · intro k request result v he hf c' l hsteps hl j e d hu
    have hm := (hg.ended he).right request result v rfl rfl hf
    have hnewer := (sound_of_good (hg.steps Work.rules hsteps)).safe.newer
    rw [hl, List.pairwise_append] at hnewer
    exact hnewer.right.right _ hm _ hu

section Sample

private def calm : Outside where
  raised     := none
  cancelled  := false
  connecting := .connected
  saving     := .written
  dbExists   := true

private def steps (k n : Nat) : List (Move Operation Outside) :=
  List.replicate n (.run k calm)

private def missing : ConfigFile where
  content := none
  version := 0

private def longer : ConfigRequest where
  timeout := some 600

private def raising : Outside where
  raised     := some (.intelligence "Embedding request failed")
  cancelled  := false
  connecting := .connected
  saving     := .written
  dbExists   := true

private def inTurn (n : Nat) : List (Move Operation Outside) :=
  (List.replicate n [.run 0 calm, .run 1 calm, .run 2 calm]).flatten

-- A request for another timeout and a sync start during a search.
private def overlapping : Calls Operation Instance Outside Interrupt Answer :=
  (Calls.init (.create missing "index.db")).follow Work.run
    (.start (.search 0 2) :: steps 0 1 ++ .start (.config longer) :: .start (.sync none true 1 2) ::
      inTurn 11)

-- The search raises, and the other two get their turn.
private def overlapped : Calls Operation Instance Outside Interrupt Answer :=
  overlapping.follow Work.run (.run 0 raising :: inTurn 30)

-- Whether a call that has ended has returned.
private def returned : Operation × Work Answer → Option Bool
  | (_, .done (.ok _))    => some true
  | (_, .done (.error _)) => some false
  | (_, .step ..)         => none

theorem of_steps_sample : overlapping.state.lock = some 0 ∧
    overlapped.tasks.map returned = [some false, some true, some true] ∧
      Lifecycle overlapping ∧ Lifecycle overlapped :=
  ⟨by decide +kernel, by decide +kernel, of_steps (Calls.follow_steps _),
    of_steps ((Calls.follow_steps _).trans (Calls.follow_steps _))⟩

-- A search and a request for another timeout, one after the other.
private def configured : Calls Operation Instance Outside Interrupt Answer :=
  (Calls.init (.create missing "index.db")).follow Work.run
    (.start (.search 0 1) :: steps 0 30 ++ .start (.config longer) :: steps 1 30)

private def searched : Calls Operation Instance Outside Interrupt Answer :=
  configured.follow Work.run (.start (.search 0 1) :: steps 2 30)

-- The version that a request for other settings of the distiller has returned with.
private def distillVersion : Operation × Work Answer → Option Nat
  | (.config request, .done (.ok (.config _ v))) => if request.distillFieldsRequested then some v else none
  | _                                           => none

-- The call that uses an embedder, and the version of the embedder.
private def usedVersion : Event → Option (Nat × Nat)
  | .used k (some e) _ => some (k, e.settings.version)
  | _                  => none

private theorem ended_of_distillVersion {k v : Nat} (h : (c.tasks[k]?).bind distillVersion = some v) :
    ∃ request result, c.Ended k (.config request) (.ok (.config result v)) ∧
      request.distillFieldsRequested := by
  obtain ⟨t, ht, hv⟩ := Option.bind_eq_some_iff.mp h
  unfold distillVersion at hv
  split at hv
  case h_2 => cases hv
  case h_1 request result w =>
    split at hv <;> cases hv
    case isTrue hd => exact ⟨request, result, ht, hd⟩

private theorem used_of_usedVersion {l : List Event} {k v : Nat} (h : (k, v) ∈ l.filterMap usedVersion) :
    ∃ e d, .used k (some e) d ∈ l ∧ e.settings.version = v := by
  obtain ⟨ev, hm, hv⟩ := List.mem_filterMap.mp h
  unfold usedVersion at hv
  split at hv <;> cases hv
  exact ⟨_, _, hm, rfl⟩

-- The embedder of the first search is used by a search that starts after the request has returned.
theorem old_embedder_used :
    (∃ request result, configured.Ended 1 (.config request) (.ok (.config result 1)) ∧
      request.distillFieldsRequested) ∧
    configured.tasks.length = 2 ∧ Calls.Steps Work.run configured searched ∧
    ∃ e d, .used 2 (some e) d ∈ searched.state.client.log ∧ e.settings.version = 0 :=
  ⟨ended_of_distillVersion (by decide +kernel), by decide +kernel, Calls.follow_steps _,
    used_of_usedVersion (by decide +kernel)⟩

end Sample

end Lifecycle
