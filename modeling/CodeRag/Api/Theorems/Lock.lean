import CodeRag.Api.Client

-- What the calls may do to the object while one of them holds its lock.

-- The second event uses nothing that is older than what the first one has put into effect.
def Event.Newer : Event → Event → Prop
  | .refreshed embedding v, .used _ e d =>
    (embedding → ∀ e' ∈ e, v ≤ e'.settings.version) ∧ ∀ d' ∈ d, v ≤ d'.settings.version
  | _, _ => True

namespace Client

variable {c c' : Client} {v : Nat}

-- An embedder, or a distiller, of version `v` is not older than what is in effect.
def EmbedderFrom (c : Client) (v : Nat) : Prop :=
  ∀ w, .refreshed true w ∈ c.log → w ≤ v

def DistillerFrom (c : Client) (v : Nat) : Prop :=
  ∀ b w, .refreshed b w ∈ c.log → w ≤ v

theorem DistillerFrom.embedderFrom (h : c.DistillerFrom v) : c.EmbedderFrom v :=
  h true

-- The embedder and the distiller are of use.
structure Stack (c : Client) : Prop where
  embedder  : ∀ e ∈ c.embedder, e.id ∉ c.closed ∧ e.id < c.fresh ∧ c.EmbedderFrom e.settings.version
  distiller : ∀ d ∈ c.distiller, c.DistillerFrom d.settings.version
  closed    : ∀ i ∈ c.closed, i < c.fresh
  pair      : c.embedder = none → c.distiller = none

-- Only the given connections are open, unless a call was cancelled while it was opening one.
def Connects (c : Client) (conns : List Nat) : Prop :=
  .interrupted ∉ c.log → c.connections = conns

-- No call works with the object.
structure Idle (c : Client) : Prop extends Stack c where
  storage     : c.storage = none
  connections : c.Connects []

-- What holds at any time.
structure Safe (c : Client) : Prop where
  connections : .interrupted ∉ c.log → c.connections.length ≤ 1
  storage     : ∀ st ∈ c.storage, ∀ e ∈ st.embedder, c.embedder = some e ∧ e.id ∉ c.closed
  newer       : c.log.Pairwise Event.Newer

-- What the holder of the lock may do in a step. It puts only requests into effect that are among the
-- first `m` writes of the file.
structure Extends (m : Nat) (c c' : Client) : Prop where
  safe    : c'.Safe
  log     : c.log <+: c'.log
  written : ∀ b v, .refreshed b v ∈ c'.log → .refreshed b v ∈ c.log ∨ v ≤ m
  held    : c.storage.isSome → c'.embedder = c.embedder ∧ c'.closed = c.closed

theorem Extends.refl {m : Nat} (h : c.Safe) : Extends m c c where
  safe          := h
  log           := List.prefix_rfl
  written _ _ h := .inl h
  held _        := ⟨rfl, rfl⟩

end Client

namespace Instance

variable {s s' : Instance} {k m : Nat} {A B : Client → Prop}

structure Sound (s : Instance) : Prop where
  safe    : s.client.Safe
  written : ∀ b v, .refreshed b v ∈ s.client.log → v ≤ s.file.version
  idle    : s.lock = none → s.client.Idle

-- What the call `k` relies on: the object is its own while it holds the lock, which nobody else can
-- give to it.
def rely (k : Nat) : Rely Instance where
  rel s s' := (s.lock = some k → s'.lock = some k ∧ s'.client = s.client) ∧
    (s.lock ≠ some k → s'.lock ≠ some k) ∧ s.client.log <+: s'.client.log ∧
    s.file.version ≤ s'.file.version ∧ (s.Sound → s'.Sound)
  refl _ := ⟨fun h => ⟨h, rfl⟩, id, List.prefix_rfl, le_rfl, id⟩
  trans  := by
    rintro s₁ s₂ s₃ ⟨hl, hn, hp, hv, hs⟩ ⟨hl', hn', hp', hv', hs'⟩
    refine ⟨fun h => ?_, fun h => hn' (hn h), hp.trans hp', hv.trans hv', fun h => hs' (hs h)⟩
    obtain ⟨hk, hc⟩ := hl h
    obtain ⟨hk', hc'⟩ := hl' hk
    exact ⟨hk', hc'.trans hc⟩

structure guarantee (k : Nat) (s s' : Instance) : Prop where
  others : ∀ j, j ≠ k → rely j s s'
  held   : s.client.storage.isSome →
    s'.client.embedder = s.client.embedder ∧ s'.client.closed = s.client.closed

-- The call `k` holds the lock, and the file was written `m` times at least.
structure Held (k m : Nat) (A : Client → Prop) (s : Instance) : Prop where
  lock    : s.lock = some k
  sound   : s.Sound
  written : m ≤ s.file.version
  client  : A s.client

-- The call `k` does not hold the lock.
structure Free (k m : Nat) (s : Instance) : Prop where
  lock    : s.lock ≠ some k
  sound   : s.Sound
  written : m ≤ s.file.version

theorem Held.rely (h : Held k m A s) (hr : Instance.rely k s s') : Held k m A s' := by
  obtain ⟨hl, _, _, hv, hs⟩ := hr
  obtain ⟨hk, hc⟩ := hl h.lock
  exact ⟨hk, hs h.sound, h.written.trans hv, hc ▸ h.client⟩

theorem Free.rely (h : Free k m s) (hr : Instance.rely k s s') : Free k m s' := by
  obtain ⟨_, hn, _, hv, hs⟩ := hr
  exact ⟨hn h.lock, hs h.sound, h.written.trans hv⟩

theorem Held.step {c : Client} (h : Held k m A s) (he : s.client.Extends m c) (hB : B c) :
    guarantee k s { s with client := c } ∧ Held k m B { s with client := c } := by
  have hs : Sound { s with client := c } := by
    refine ⟨he.safe, fun b v hv => ?_, fun hn => by cases h.lock.symm.trans hn⟩
    obtain hv | hv := he.written b v hv
    case inl => exact h.sound.written b v hv
    case inr => exact hv.trans h.written
  refine ⟨⟨fun j hj => ⟨fun hl => ?_, id, he.log, le_rfl, fun _ => hs⟩, he.held⟩,
    ⟨h.lock, hs, h.written, hB⟩⟩
  exact absurd (Option.some.inj (hl.symm.trans h.lock)) hj

end Instance

namespace Work

open Instance Routine

variable {α β : Type} {k m : Nat} {A A' : Client → Prop} {B B' : Except Interrupt α → Client → Prop}
variable {t : Work α}

-- While the call `k` holds the lock, it leads from `A` to `B`.
def Guards (k m : Nat) (A : Client → Prop) (t : Work α) (B : Except Interrupt α → Client → Prop) :
    Prop :=
  ∀ s, Held k m A s → t.wp (rely k) (guarantee k) (fun r => Held k m (B r)) s

namespace Guards

theorem pre (h : Guards k m A t B) (hA : ∀ c, A' c → A c) : Guards k m A' t B :=
  fun s hs => h s { hs with client := hA _ hs.client }

theorem post (h : Guards k m A t B) (hB : ∀ r c, B r c → B' r c) : Guards k m A t B' :=
  fun s hs => wp_mono (h s hs) fun r _ hr => { hr with client := hB r _ hr.client }

theorem done {r : Except Interrupt α} : Guards k m (B r) (.done r) B :=
  fun _ hs _ hr => hs.rely hr

theorem bind {f : α → Work β} {C : Except Interrupt β → Client → Prop} (ht : Guards k m A t B)
    (hf : ∀ a, Guards k m (B (.ok a)) (f a) C) (he : ∀ e c, B (.error e) c → C (.error e) c) :
    Guards k m A (t >>= f) C :=
  fun s hs => wp_bind (ht s hs) (fun a s ha => hf a s ha)
    fun e _ h => { h with client := he e _ h.client }

theorem attempt (h : Guards k m A t B) :
    Guards k m A t.attempt fun r c => ∃ a, r = .ok a ∧ B a c :=
  fun s hs => wp_attempt <| wp_mono (h s hs) fun r _ hr => { hr with client := ⟨r, rfl, hr.client⟩ }

theorem act {upd : Instance → Outside → Option Instance} {res : Instance → Outside → Except Interrupt α}
    (h : ∀ s o s', Held k m A s → upd s o = some s' →
      ∃ c, s' = { s with client := c } ∧ s.client.Extends m c ∧ B (res s o) c) :
    Guards k m A (Routine.act upd res) B := by
  intro s hs s' hr o s'' hu
  have hs' := hs.rely hr
  obtain ⟨c, rfl, he, hB⟩ := h s' o s'' hs' hu
  obtain ⟨hg, hh⟩ := hs'.step he hB
  exact ⟨hg, fun _ hr => hh.rely hr⟩

theorem update {f : Client → Client} {B : Except Interrupt Unit → Client → Prop}
    (h : ∀ c, c.Safe → A c → c.Extends m (f c) ∧ B (.ok ()) (f c)) : Guards k m A (update f) B := by
  refine act fun s o s' hs hu => ?_
  cases hu
  exact ⟨_, rfl, h _ hs.sound.safe hs.client⟩

theorem read {f : Instance → α} (h : ∀ s, Held k m A s → B (.ok (f s)) s.client) :
    Guards k m A (read f) B := by
  refine act fun s o s' hs hu => ?_
  cases hu
  exact ⟨_, rfl, .refl hs.sound.safe, h s hs⟩

theorem await {B : Except Interrupt Unit → Client → Prop} (h : ∀ r c, A c → B r c) :
    Guards k m A await B := by
  refine act fun s o s' hs hu => ?_
  cases hu
  exact ⟨_, rfl, .refl hs.sound.safe, h _ _ hs.client⟩

theorem andFinally {c : Work Unit} (ht : Guards k m A t B)
    (hc : ∀ r, Guards k m (B r) c fun r' cl => r' = .ok () ∧ B' r cl) :
    Guards k m A (t.andFinally c) B' := by
  refine bind ht.attempt (fun r => ?_) (fun _ _ => nofun)
  refine pre (A := B r) ?_ fun _ ⟨_, h, hB⟩ => Except.ok.inj h ▸ hB
  refine bind (hc r) (fun _ => ?_) (fun _ _ => nofun)
  exact pre done fun _ h => h.right

theorem handle {h : Interrupt → Work α} (ht : Guards k m A t B)
    (ok : ∀ a c, B (.ok a) c → B' (.ok a) c)
    (error : ∀ e, Guards k m (B (.error e)) (h e) B') : Guards k m A (t.handle h) B' := by
  refine bind ht.attempt (fun r => ?_) (fun _ _ => nofun)
  refine pre (A := B r) ?_ fun _ ⟨_, h, hB⟩ => Except.ok.inj h ▸ hB
  cases r
  case ok a    => exact pre done fun _ => ok a _
  case error e => exact error e

end Guards

theorem guarantee_refl {s : Instance} : guarantee k s s :=
  ⟨fun j _ => (rely j).refl s, fun _ => ⟨rfl, rfl⟩⟩

private theorem guarantee_acquire {s : Instance} (hl : s.lock = none) (hs : s.Sound) :
    guarantee k s { s with lock := some k } ∧ Sound { s with lock := some k } := by
  have hs' : Sound { s with lock := some k } := ⟨hs.safe, hs.written, nofun⟩
  refine ⟨⟨fun j hj => ⟨fun h => ?_, fun _ h => ?_, List.prefix_rfl, le_rfl, fun _ => hs'⟩,
    fun _ => ⟨rfl, rfl⟩⟩, hs'⟩
  · cases hl.symm.trans h
  · exact hj (Option.some.inj h).symm

private theorem guarantee_release {s : Instance} (hl : s.lock = some k) (hs : s.Sound)
    (hi : s.client.Idle) :
    guarantee k s { s with lock := none } ∧ Sound { s with lock := none } := by
  have hs' : Sound { s with lock := none } := ⟨hs.safe, hs.written, fun _ => hi⟩
  refine ⟨⟨fun j hj => ⟨fun h => ?_, fun _ => nofun, List.prefix_rfl, le_rfl, fun _ => hs'⟩,
    fun _ => ⟨rfl, rfl⟩⟩, hs'⟩
  exact absurd (Option.some.inj (h.symm.trans hl)) hj

-- The lock is taken from and given back to an idle object.
theorem withLock_wp {E : α → List Event → Prop} {s : Instance}
    (hE : ∀ a l l', l <+: l' → E a l → E a l') (hs : Free k m s)
    (h : Guards k m Client.Idle t fun r c => c.Idle ∧ ∀ a, r = .ok a → E a c.log) :
    (withLock k t).wp (rely k) (guarantee k)
      (fun r s => Free k m s ∧ ∀ a, r = .ok a → E a s.client.log) s := by
  have hacquire : (acquire k).wp (rely k) (guarantee k)
      (fun r s => (∀ a, r = .ok a → Held k m Client.Idle s) ∧ ∀ e, r = .error e → Free k m s) s := by
    intro s₁ hr o s₂ hu
    have h₁ := hs.rely hr
    dsimp only at hu
    split at hu
    case isTrue hc =>
      cases hu
      refine ⟨guarantee_refl, fun s₃ hr₃ => ?_⟩
      dsimp only
      rw [if_pos hc]
      exact ⟨nofun, fun _ _ => h₁.rely hr₃⟩
    case isFalse hc =>
      split at hu <;> cases hu
      case isTrue hl =>
        obtain ⟨hg, hs₂⟩ := guarantee_acquire hl h₁.sound
        refine ⟨hg, fun s₃ hr₃ => ?_⟩
        dsimp only
        rw [if_neg hc]
        refine ⟨fun _ _ => Held.rely ⟨rfl, hs₂, h₁.written, h₁.sound.idle hl⟩ hr₃, nofun⟩
  refine wp_bind hacquire (fun _ s h₁ => ?_) fun e s h₁ => ⟨h₁.right e rfl, nofun⟩
  refine wp_bind (h.attempt s (h₁.left _ rfl)) (fun r s hr => ?_) fun e s hr => ?_
  case refine_2 =>
    obtain ⟨_, hr, _⟩ := hr.client
    cases hr
  case refine_1 =>
    have hrelease : release.wp (rely k) (guarantee k)
        (fun _ s => Free k m s ∧ ∀ a, r = .ok a → E a s.client.log) s := by
      intro s₁ hr₁ o s₂ hu
      cases hu
      have h₁ := hr.rely hr₁
      obtain ⟨_, ⟨⟩, hi, hEr⟩ := h₁.client
      obtain ⟨hg, hs₂⟩ := guarantee_release h₁.lock h₁.sound hi
      have hf : Free k m { s₁ with lock := none } := ⟨nofun, hs₂, h₁.written⟩
      refine ⟨hg, fun s₃ hr₃ => ⟨hf.rely hr₃, fun a ha => ?_⟩⟩
      exact hE a _ _ hr₃.right.right.left (hEr a ha)
    refine wp_bind hrelease (fun _ s₁ h₁ => ?_) fun e s₁ h₁ => ⟨h₁.left, nofun⟩
    refine wp_done fun s₂ hr₂ => ⟨h₁.left.rely hr₂, fun a ha => ?_⟩
    exact hE a _ _ hr₂.right.right.left (h₁.right a ha)

end Work
