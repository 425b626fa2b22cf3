import Piezo.Proofs.Exclusive
import Piezo.Proofs.Shared

/-!
Restarts: a start that goes on leaves nothing of what the player did before. The player is then what
a new one becomes by the same start, and nothing that comes later can tell the two apart.
-/

namespace Piezo

section Anew

variable {c : Channel} {t t' u : Leases} {held : Option Lease} {lease : Lease}

/-- Whoever secures a channel, as its own already or as a free one, gets what a newcomer gets from a
table where the channel is free. -/
theorem Leases.secure_anew (own : ∀ l, held = some l → l = ⟨c⟩ ∧ t.isLeased c = true)
    (free : u.isLeased c = false) (hs : t.secure held c = .ok (lease, t')) :
    lease = ⟨c⟩ ∧
      ∃ u', u.secure none c = .ok (⟨c⟩, u') ∧ u'.isLeased c = t'.isLeased c := by
  obtain ⟨hu, -⟩ | ⟨-, u', hu, hc⟩ := u.acquire_cases c
  · rw [free] at hu
    cases hu
  have leased : ∀ {v v' : Leases}, v'.channels = c :: v.channels → v'.isLeased c = true := by
    intro v v' h
    simp [isLeased_of_cons h]
  cases held with
  | some l =>
    cases hs
    obtain ⟨rfl, ht⟩ := own _ rfl
    exact ⟨rfl, u', hu, by rw [leased hc, ht]⟩
  | none =>
    obtain ⟨rfl, ht⟩ := of_acquire_eq_ok hs
    exact ⟨rfl, u', hu, by rw [leased hc, leased ht]⟩

/-- An attempt that is accepted goes as a newcomer's if the two go on alike. -/
theorem Attempt.start_anew {α : Type} {p q : α} {kind : Kind} {checked : Except Error Unit}
    {enter enter' : Lease → Leases → Turn α}
    (own : ∀ l, held = some l → l = ⟨c⟩ ∧ t.isLeased c = true) (free : u.isLeased c = false)
    (alike : ∀ t u, u.isLeased c = t.isLeased c → (enter ⟨c⟩ t).Agree c (enter' ⟨c⟩ u))
    (accepted : (start p kind c held t checked enter).verdict = .ok ()) :
    (start p kind c held t checked enter).Agree c (start q kind c none u checked enter') := by
  obtain ⟨error, -, hs⟩ | ⟨-, error, -, hs⟩ | ⟨hc, lease, t', hl, hs⟩ :=
    start_cases p kind c held t checked enter
  · simp [hs] at accepted
  · simp [hs] at accepted
  · obtain ⟨rfl, u', hu, hleased⟩ := Leases.secure_anew own free hl
    rw [hs]
    simp only [start, hc, hu]
    exact ⟨alike t' u' hleased, rfl⟩

/-- A note begins alike, whatever note was held before it. -/
theorem MelodyPlayer.play_anew {p : MelodyPlayer} (inner : p.tone.lease = none) (t : Leases)
    (now : UInt32) (n : Note) :
    MelodyPlayer.play { p with tone := { channel := p.channel, settings := p.settings } } t now n =
      p.play t now n := by
  obtain ⟨⟨channel, settings, hold, held⟩, playback, lease, begun⟩ := p
  cases (inner : held = none)
  unfold play TonePlayer.playNote
  dsimp only [MelodyPlayer.channel, MelodyPlayer.settings]
  cases Hold.check settings.range n.frequency n.duration.toUInt32 <;> rfl

theorem MelodyPlayer.enter_anew {p : MelodyPlayer} (inner : p.tone.lease = none) (now : UInt32)
    (m : Melody) (repeats : UInt8) (lease : Lease) (t : Leases) :
    MelodyPlayer.enter { tone := { channel := p.channel, settings := p.settings } } now m repeats
      lease t = p.enter now m repeats lease t := by
  have h := MelodyPlayer.play_anew
    (p := { p with
      playback := some ⟨m, 0, 0, max repeats 1, now⟩, lease := some lease, counted := 0 })
    inner t now (Playback.note? ⟨m, 0, 0, max repeats 1, now⟩ |>.getD default)
  unfold enter
  dsimp only
  exact congrArg
    (fun turn : Turn MelodyPlayer =>
      { turn with
        notices :=
          .melodyStarted p.channel m.size (max repeats 1) m.isOwned :: turn.notices }) h

end Anew

namespace Player

variable {p : Player} {t u : Leases} {now : UInt32} {request : Request} {a : Attempt Player}

/-- A player of the same kind and settings, for the same channel, that has played nothing yet. -/
def anew (p : Player) : Player := idle p.kind p.channel p.settings

theorem melody_start_anew {p : MelodyPlayer} (h : (Player.melody p).Coherent)
    (own : ∀ l, p.lease = some l → l = ⟨p.channel⟩ ∧ t.isLeased p.channel = true)
    (free : u.isLeased p.channel = false) (m : Melody) (repeats : UInt8)
    (accepted : (p.start t now m repeats).verdict = .ok ()) :
    (p.start t now m repeats).Agree p.channel
      (MelodyPlayer.start { tone := { channel := p.channel, settings := p.settings } } u now m
        repeats) := by
  refine Attempt.start_anew own free (fun t u hl => ?_) accepted
  rw [MelodyPlayer.enter_anew h.inner.1]
  exact p.enter_agree hl now m repeats _

theorem tune_start_anew {p : MelodyPlayer} (h : (Player.melody p).Coherent)
    (own : ∀ l, p.lease = some l → l = ⟨p.channel⟩ ∧ t.isLeased p.channel = true)
    (free : u.isLeased p.channel = false) (source : Tune.Source) (repeats : UInt8)
    (accepted : (p.startTune t now source repeats).verdict = .ok ()) :
    (p.startTune t now source repeats).Agree p.channel
      (MelodyPlayer.startTune { tone := { channel := p.channel, settings := p.settings } } u now
        source repeats) := by
  cases hr : Tune.read p.settings source with
  | error error => simp [MelodyPlayer.startTune, hr] at accepted
  | ok tune =>
    -- The new player has the same settings, but they are not found in it by rewriting.
    have hnew : Tune.read (MelodyPlayer.settings
        { tone := { channel := p.channel, settings := p.settings } }) source = .ok tune := hr
    simp only [MelodyPlayer.startTune, hr, hnew] at accepted ⊢
    have k := melody_start_anew h own free tune.melody repeats accepted
    exact { k with notices := congrArg (_ ++ ·) k.notices }

/-- A start that goes on makes of any player what it makes of a new one. -/
theorem start?_anew (h : p.Coherent) (hl : p.Listed t) (free : u.isLeased p.channel = false)
    (ha : p.start? t now request = some a) (accepted : a.verdict = .ok ()) :
    ∃ b, p.anew.start? u now request = some b ∧ a.Agree p.channel b := by
  have own : ∀ l, p.lease = some l → l = ⟨p.channel⟩ ∧ t.isLeased p.channel = true := by
    intro l hp
    rw [h.lease] at hp
    split at hp
    · next active =>
      cases hp
      exact ⟨rfl, by simpa [Leases.isLeased] using hl active⟩
    · cases hp
  cases p <;> cases request <;> simp only [start?, reduceCtorEq, Option.some.injEq] at ha <;>
    subst ha
  case tone.tone p frequency duration =>
    refine ⟨_, rfl, Attempt.Agree.map ?_ _⟩
    exact Attempt.start_anew own free (fun _ _ hl => ⟨rfl, rfl, rfl, hl⟩) accepted
  case melody.melody p m repeats =>
    exact ⟨_, rfl, (melody_start_anew h own free m repeats accepted).map _⟩
  case melody.tune p source repeats =>
    exact ⟨_, rfl, (tune_start_anew h own free source repeats accepted).map _⟩
  case alert.alert p pattern =>
    refine ⟨_, rfl, Attempt.Agree.map ?_ _⟩
    exact Attempt.start_anew own free (fun _ _ hl => ⟨rfl, rfl, rfl, hl⟩) accepted
  case sweep.sweep p ramp =>
    refine ⟨_, rfl, Attempt.Agree.map ?_ _⟩
    exact Attempt.start_anew own free (fun _ _ hl => ⟨rfl, rfl, rfl, hl⟩) accepted
  case siren.siren p wail =>
    refine ⟨_, rfl, Attempt.Agree.map ?_ _⟩
    exact Attempt.start_anew own free (fun _ _ hl => ⟨rfl, rfl, rfl, hl⟩) accepted

end Player

/-- What may come after a start: clocks go on or are set, and the player is ticked or stopped. -/
inductive Sequel where
  | advance (ms : UInt32)
  | advanceOutput (ms : UInt32)
  | setTime (now : UInt32)
  | tick
  | stop
deriving DecidableEq, Repr

/-- The step that a sequel is for the player in a seat. -/
def Sequel.step (i : Nat) : Sequel → Step
  | .advance ms => .advance ms
  | .advanceOutput ms => .advanceOutput ms
  | .setTime now => .setTime now
  | .tick => .tick i
  | .stop => .stop i

namespace Session

/-- Two sessions with the same clocks and, in one seat of each, the same player, whose channel is
leased in both or in neither. -/
structure Twins (c : Channel) (i j : Nat) (s s' : Session) : Prop where
  player : ∃ p t t', s.seated? i = some (p, t) ∧ s'.seated? j = some (p, t') ∧
    t'.isLeased c = t.isLeased c
  output : s'.recording.now = s.recording.now
  board : s'.board = s.board

/-- The second session has recorded these events more than the first. -/
def Records (s s' : Session) (events : List Event) : Prop :=
  s'.recording.events.toList = s.recording.events.toList ++ events

variable {s s' u u' v v' : Session} {c : Channel} {i j : Nat} {p q : Player} {t t' : Leases}
  {f : Player → Leases → Turn Player} {events more : List Event}

theorem records_self (s : Session) : s.Records s [] := by simp [Records]

theorem Records.trans (h : s.Records u events) (k : u.Records v more) :
    s.Records v (events ++ more) := by
  unfold Records at *
  rw [k, h, List.append_assoc]

theorem records_apply (s : Session) (i : Nat) (turn : Turn Player) :
    s.Records (s.apply i turn) (turn.commands.map fun command => ⟨s.recording.now, command⟩) := by
  rw [Records, recording_apply, Recording.events_performAll]

/-- Turns that agree make twins of sessions with the same clocks, and record the same. -/
theorem twins_apply (output : s'.recording.now = s.recording.now) (board : s'.board = s.board)
    (hs : s.seated? i = some (p, t)) (hs' : s'.seated? j = some (q, t')) {a b : Turn Player}
    (k : a.Agree c b) :
    Twins c i j (s.apply i a) (s'.apply j b) ∧
      ∃ events, s.Records (s.apply i a) events ∧ s'.Records (s'.apply j b) events := by
  constructor
  · constructor
    case player =>
      have hb := seated?_apply hs' b
      rw [k.player] at hb
      exact ⟨_, _, _, seated?_apply hs a, hb, k.leased⟩
    case output => simp [recording_apply, output]
    case board => simp [board_apply, board]
  · have hb := records_apply s' j b
    rw [k.commands, output] at hb
    exact ⟨_, records_apply s i a, hb⟩

namespace Twins

theorem now (h : Twins c i j s s') : s'.now = s.now := by
  simp only [Session.now, h.output, h.board]

theorem call (h : Twins c i j s s') (k : Player.IsCall f) :
    Twins c i j (s.call i f).1 (s'.call j f).1 ∧
      ∃ events, s.Records (s.call i f).1 events ∧ s'.Records (s'.call j f).1 events := by
  obtain ⟨p, t, t', hs, hs', hl⟩ := h.player
  simp only [Session.call, hs, hs']
  exact twins_apply h.output h.board hs hs' (k.agree p c t t' hl)

theorem seats (h : Twins c i j s s') :
    (∃ seat, s.seats[i]? = some seat) ∧ ∃ seat, s'.seats[j]? = some seat := by
  obtain ⟨p, t, t', hs, hs', -⟩ := h.player
  obtain ⟨seat, hseat, -⟩ := Option.bind_eq_some_iff.mp hs
  obtain ⟨seat', hseat', -⟩ := Option.bind_eq_some_iff.mp hs'
  exact ⟨⟨seat, hseat⟩, seat', hseat'⟩

/-- A sequel keeps two sessions twins, and both record the same of it. -/
theorem step (h : Twins c i j s s') (sequel : Sequel) :
    ∃ o o' events, s.step? (sequel.step i) = some o ∧ s'.step? (sequel.step j) = some o' ∧
      Twins c i j o.session o'.session ∧ s.Records o.session events ∧
      s'.Records o'.session events := by
  obtain ⟨⟨seat, hseat⟩, seat', hseat'⟩ := h.seats
  cases sequel with
  | advance ms =>
    refine ⟨_, _, [], rfl, rfl, ?_, ?_⟩
    · obtain ⟨leases, seats, kept, recording, board⟩ := s
      obtain ⟨leases', seats', kept', recording', board'⟩ := s'
      cases (h.board : board' = board)
      cases board with
      | none => exact ⟨h.player, congrArg (· + ms) h.output, rfl⟩
      | some now => exact ⟨h.player, h.output, rfl⟩
    · unfold Session.advance Records
      constructor <;> split <;> simp [Recording.advance]
  | advanceOutput ms =>
    exact ⟨_, _, [], rfl, rfl, ⟨h.player, congrArg (· + ms) h.output, h.board⟩,
      records_self s, records_self s'⟩
  | setTime now =>
    exact ⟨_, _, [], rfl, rfl, ⟨h.player, rfl, h.board⟩, records_self s, records_self s'⟩
  | tick =>
    obtain ⟨twins, events, hr, hr'⟩ := h.call (Player.isCall_tick s.now)
    rw [← tick_eq_call] at twins hr
    rw [← h.now, ← tick_eq_call] at twins hr'
    refine ⟨{ session := (s.tick i).1, notices := (s.tick i).2 },
      { session := (s'.tick j).1, notices := (s'.tick j).2 }, events, ?_, ?_, twins, hr, hr'⟩
    · simp only [Sequel.step, step?, hseat, Option.bind_eq_bind, Option.bind_some, Option.pure_def]
    · simp only [Sequel.step, step?, hseat', Option.bind_eq_bind, Option.bind_some, Option.pure_def]
  | stop =>
    obtain ⟨twins, events, hr, hr'⟩ := h.call Player.isCall_stop
    refine ⟨{ session := (s.stop i).1, notices := (s.stop i).2 },
      { session := (s'.stop j).1, notices := (s'.stop j).2 }, events, ?_, ?_, twins, hr, hr'⟩
    · simp only [Sequel.step, step?, hseat, Option.bind_eq_bind, Option.bind_some, Option.pure_def]
    · simp only [Sequel.step, step?, hseat', Option.bind_eq_bind, Option.bind_some, Option.pure_def]

/-- So does any number of sequels. -/
theorem through (h : Twins c i j s s') (later : List Sequel) :
    ∃ u u' events, s.perform? (later.map (Sequel.step i)) = some u ∧
      s'.perform? (later.map (Sequel.step j)) = some u' ∧ Twins c i j u u' ∧
      s.Records u events ∧ s'.Records u' events := by
  induction later generalizing s s' with
  | nil => exact ⟨s, s', [], rfl, rfl, h, records_self s, records_self s'⟩
  | cons sequel rest ih =>
    obtain ⟨o, o', events, ho, ho', twins, hr, hr'⟩ := h.step sequel
    obtain ⟨u, u', more, hu, hu', last, hm, hm'⟩ := ih twins
    refine ⟨u, u', events ++ more, ?_, ?_, last, hr.trans hm, hr'.trans hm'⟩
    · simpa [perform?, ho] using hu
    · simpa [perform?, ho'] using hu'

end Twins

variable {request : Request} {o : Outcome}

/-- A start that goes on makes twins of a session, whatever it has come to, and of one in which the
player is new. -/
theorem twins_start (reached : s.Accounted []) (seated : s.seated? i = some (p, t))
    (start : s.step? (.start i request) = some o) (accepted : o.answer = .ok)
    (fresh : s'.seated? j = some (p.anew, t')) (free : t'.isLeased p.channel = false)
    (output : s'.recording.now = s.recording.now) (board : s'.board = s.board) :
    ∃ o' events, s'.step? (.start j request) = some o' ∧ o'.answer = .ok ∧
      o'.notices = o.notices ∧ Twins p.channel i j o.session o'.session ∧
      s.Records o.session events ∧ s'.Records o'.session events := by
  obtain ⟨⟨p, t⟩, hs, ho⟩ := Option.bind_eq_some_iff.mp start
  obtain ⟨attempt, ha, ⟨⟩⟩ := Option.bind_eq_some_iff.mp ho
  cases hs.symm.trans seated
  have verdict := (answer_started s i attempt).mp accepted
  obtain ⟨hp, home, hi, ht⟩ := seated?_eq_some.mp seated
  obtain ⟨b, hb, agree⟩ := Player.start?_anew (reached.coherent i p hp)
    (reached.listed hi hp ht) free ha verdict
  have now : s'.now = s.now := by simp only [Session.now, output, board]
  obtain ⟨twins, events, hr, hr'⟩ := twins_apply output board seated fresh agree.toAgree
  refine ⟨s'.started j b, events, step?_of_attempt fresh (now ▸ hb), ?_, agree.notices, twins, hr,
    hr'⟩
  exact (answer_started s' j b).mpr (agree.verdict.trans verdict)

/-- A start that goes on forgets what the player did before, whatever the session has come to. A new
player of its kind, channel and settings may be started likewise at the same time wherever the
channel is free, and whatever comes later, the two have issued the same commands at the same times
and are the same players, with their channel leased in both sessions or in neither. -/
theorem restart_forgets {recording : Recording} {clock : Option UInt32}
    (reached : Reaches (fun _ _ => True) { recording, board := clock } s)
    (seated : s.seated? i = some (p, t)) (start : s.step? (.start i request) = some o)
    (accepted : o.answer = .ok) (fresh : s'.seated? j = some (p.anew, t'))
    (free : t'.isLeased p.channel = false) (output : s'.recording.now = s.recording.now)
    (board : s'.board = s.board) :
    ∃ o', s'.step? (.start j request) = some o' ∧ o'.answer = .ok ∧ o'.notices = o.notices ∧
      ∀ later : List Sequel, ∃ u u' q v v' events,
        o.session.perform? (later.map (Sequel.step i)) = some u ∧
        o'.session.perform? (later.map (Sequel.step j)) = some u' ∧
        s.Records u events ∧ s'.Records u' events ∧ u'.now = u.now ∧
        u.seated? i = some (q, v) ∧ u'.seated? j = some (q, v') ∧
        v'.isLeased p.channel = v.isLeased p.channel := by
  obtain ⟨o', events, ho', answer, notices, twins, hr, hr'⟩ :=
    twins_start reached.accounted seated start accepted fresh free output board
  refine ⟨o', ho', answer, notices, fun later => ?_⟩
  obtain ⟨u, u', more, hu, hu', last, hm, hm'⟩ := twins.through later
  obtain ⟨q, v, v', hq, hq', leased⟩ := last.player
  exact ⟨u, u', q, v, v', events ++ more, hu, hu', hr.trans hm, hr'.trans hm', last.now, hq, hq',
    leased⟩

/-- A melody in its second note, which is started again with a note that cannot be played. -/
def relapse : List Step :=
  [.join .melody ⟨0⟩ false {}, .lease ⟨1⟩ 0, .start 0 (.melody ⟨#[⟨440, 100⟩, ⟨0, 50⟩], .owned⟩ 2),
    .advance 160, .tick 0]

theorem restart_forgets_amid_melody :
    ∃ s s' o o', ({} : Session).perform? relapse = some s ∧
      ({ recording := { now := 160 } } : Session).perform? [.join .melody ⟨0⟩ false {}] = some s' ∧
      s.step? (.start 0 (.melody ⟨#[⟨5, 10⟩, ⟨523, 20⟩], .shared⟩ 1)) = some o ∧
      s'.step? (.start 0 (.melody ⟨#[⟨5, 10⟩, ⟨523, 20⟩], .shared⟩ 1)) = some o' ∧
      ∃ u u' q v v' events,
        o.session.perform? ([.advance 70, .tick, .advance 5, .stop].map (Sequel.step 0)) = some u ∧
        o'.session.perform? ([.advance 70, .tick, .advance 5, .stop].map (Sequel.step 0)) =
          some u' ∧
        s.Records u events ∧ s'.Records u' events ∧ u.seated? 0 = some (q, v) ∧
        u'.seated? 0 = some (q, v') ∧ v'.isLeased ⟨0⟩ = v.isLeased ⟨0⟩ := by
  obtain ⟨s, s', p, o, hs, hs', seated, start, accepted, fresh, free, output, board, hc⟩ :
      ∃ s s' p o, ({} : Session).perform? relapse = some s ∧
        ({ recording := { now := 160 } } : Session).perform? [.join .melody ⟨0⟩ false {}] =
          some s' ∧
        s.seated? 0 = some (p, s.leases) ∧
        s.step? (.start 0 (.melody ⟨#[⟨5, 10⟩, ⟨523, 20⟩], .shared⟩ 1)) = some o ∧
        o.answer = .ok ∧ s'.seated? 0 = some (p.anew, s'.leases) ∧
        s'.leases.isLeased p.channel = false ∧ s'.recording.now = s.recording.now ∧
        s'.board = s.board ∧ p.channel = ⟨0⟩ :=
    ⟨_, _, _, _, rfl, rfl, rfl, rfl, rfl, rfl, rfl, rfl, rfl, rfl⟩
  have reached : Reaches (fun _ _ => True) {} s :=
    reaches_of_perform? relapse .refl (fun _ _ _ => trivial) hs
  obtain ⟨o', ho', -, -, h⟩ :=
    restart_forgets reached seated start accepted fresh free output board
  obtain ⟨u, u', q, v, v', events, hu, hu', hr, hr', -, hq, hq', leased⟩ :=
    h [.advance 70, .tick, .advance 5, .stop]
  exact ⟨s, s', o, o', hs, hs', start, ho', u, u', q, v, v', events, hu, hu', hr, hr', hq, hq',
    hc ▸ leased⟩

end Session

end Piezo
