import CodingChallenges.Redis.StoredValues

/-!
# Removing What Has Expired

Whether what is removed as expired has expired.

`get` and the timer look at an entry in one section and remove its key in another.
In between other clients can store something under the key, and it is removed in
place of the entry that was found expired.

A key is doomed from the time somebody finds it expired until it is removed. Pushes
to the expired list do not change its expiry, so they do no harm. Storing an entry
that has not expired does: whoever is about to remove the key will not notice
(`removals_expired`).

## Main definitions

* `Doomed`: A key that a party is about to remove as expired.
* `Careful`: A program that removes nothing as expired but what it has found so.
* `Clocked`: The parties and a clock that does not go back.
* `SparesDoomed`: A step that stores nothing live under a doomed key.
* `RemovesExpired`: A step that removes nothing as expired but what has expired.

## Theorems

* `careful_serve`, `careful_handleTimer`: The clients and the timer are careful.
* `Sane.step`: What is doomed has expired, as long as doomed keys are spared.
* `exists_removal`: A live entry under a doomed key can be removed.
* `removals_expired`: When only what has expired is removed.
-/

namespace CodingChallenges

namespace Redis

/-- Removing a key because it was found expired. -/
def Operation.Expiring (op : Operation) : Prop :=
  ∃ key, op = .remove .expiry key

/-- The party is about to remove the key as expired. -/
def Doomed {α : Type} (key : Key) (p : Program α) : Prop :=
  p.Next Operation.Expiring fun op => op = .remove .expiry key

/-- The section has found the key expired. -/
def Finds (key : Key) : (op : Operation) → Reply op → Prop
  | .find other, found => other = key ∧ found = .expired
  | .draw, keys => key ∈ keys
  | _, _ => False

/-- The program removes nothing as expired but what it has found so, and what follows
    such a removal does not depend on what it returns. -/
def Careful {α : Type} : Program α → Prop
  | .done _ => True
  | .locked op next =>
    (∀ r, Careful (next r)) ∧ (∀ r key, Doomed key (next r) → op.Expiring ∨ Finds key op r) ∧
      (op.Expiring → ∀ r r', next r = next r')

section Programs

variable {α β : Type} {key : Key}

theorem doomed_locked {op : Operation} {next : Reply op → Program α}
    (h : Doomed key (.locked op next)) : op.Expiring := by
  rcases h with h | ⟨h, -⟩
  · exact ⟨key, h⟩
  · exact h

theorem doomed_bind {p : Program α} {f : α → Program β} (hf : ∀ a, ¬ Doomed key (f a))
    (h : Doomed key (p >>= f)) : Doomed key p := by
  induction p with
  | done a => exact absurd h (hf a)
  | locked op next ih =>
      rcases h with h | ⟨hop, r, h⟩
      · exact Or.inl h
      · exact Or.inr ⟨hop, r, ih r h⟩

theorem Careful.bind {p : Program α} {f : α → Program β} (h : Careful p)
    (hf : ∀ a, Careful (f a)) (hnot : ∀ a key, ¬ Doomed key (f a)) : Careful (p >>= f) := by
  induction p with
  | done a => exact hf a
  | locked op next ih =>
      rcases h with ⟨hnext, hfinds, hsame⟩
      refine ⟨fun r => ih r (hnext r), fun r key hdoomed => ?_, fun hop r r' => ?_⟩
      · exact hfinds r key (doomed_bind (fun a => hnot a key) hdoomed)
      · exact congrArg (· >>= f) (hsame hop r r')

/-- A program that removes nothing as expired. -/
theorem careful_of_uses {p : Program α} (h : p.Uses fun op => ¬ op.Expiring) : Careful p := by
  induction p with
  | done a => trivial
  | locked op next ih =>
      refine ⟨fun r => ih r (h.2 r), fun r key hdoomed => ?_, fun hop => absurd hop h.1⟩
      -- A doomed program begins with a removal, and this one has none.
      cases hnext : next r with
      | done a =>
          rw [hnext] at hdoomed
          exact absurd hdoomed id
      | locked op' next' =>
          have hrest := h.2 r
          rw [hnext] at hdoomed hrest
          exact absurd (doomed_locked hdoomed) hrest.1

theorem not_doomed_of_uses {p : Program α} (h : p.Uses fun op => ¬ op.Expiring) :
    ¬ Doomed key p := by
  intro hdoomed
  cases p with
  | done a => exact hdoomed
  | locked op next => exact h.1 (doomed_locked hdoomed)

theorem not_expiring_find (key : Key) : ¬ (Operation.find key).Expiring := by
  rintro ⟨_, h⟩
  cases h

theorem careful_get (key : Key) : Careful (get key) := by
  refine ⟨fun found => ?_, fun found other hdoomed => ?_, fun hop => ?_⟩
  · cases found with
    | missing => trivial
    | expired => exact ⟨fun _ => trivial, fun _ _ h => absurd h id, fun _ _ _ => rfl⟩
    | live value => cases value <;> trivial
  · -- Only the section that finds the key expired is followed by its removal.
    right
    cases found with
    | missing => exact absurd hdoomed id
    | expired =>
        rcases hdoomed with h | ⟨-, _, h⟩
        · cases h
          exact ⟨rfl, rfl⟩
        · exact absurd h id
    | live value => cases value <;> exact absurd hdoomed id
  · exact absurd hop (not_expiring_find key)

theorem adjust_quiet (change : Int64 → Int64) (key : Key) :
    (adjust change key).Uses fun op => ¬ op.Expiring := by
  have hset : ∀ key value, ¬ (Operation.set key value).Expiring := by
    rintro key value ⟨_, h⟩
    cases h
  have hpeek : ∀ key, ¬ (Operation.peek key).Expiring := by
    rintro key ⟨_, h⟩
    cases h
  refine ⟨not_expiring_find key, fun found => ?_⟩
  cases found with
  | missing => trivial
  | expired => exact ⟨hset _ _, fun _ => trivial⟩
  | live value =>
      cases value with
      | string value =>
          change Sections.Uses _ (adjustFound change key (.live (.string value)))
          unfold adjustFound
          simp only
          cases isValidSigned64BitInt value.str with
          | none => trivial
          | some n => exact ⟨hpeek _, fun _ => ⟨hset _ _, fun _ => trivial⟩⟩
      | _ => trivial

/-- A command removes nothing as expired, unless it is a `GET`. -/
theorem process_cases (command : RespType) :
    ((process command).Uses fun op => ¬ op.Expiring) ∨
      ∃ key, process command = get key >>= fun response => .done (.response response) := by
  by_cases hget : ∃ key, command = commandOf [bytes "GET", key]
  · right
    rcases hget with ⟨key, rfl⟩
    exact ⟨key, rfl⟩
  · -- `INCR` and `DECR` store in their expired branch, and remove nothing.
    left
    have hordinary : ∀ op : Operation, op.Ordinary → ¬ op.Expiring := by
      rintro op hop ⟨key, rfl⟩
      exact hop
    exact process_uses hordinary (fun key hkey => absurd ⟨key, hkey⟩ hget)
      fun key change _ => adjust_quiet change key

theorem careful_process (command : RespType) : Careful (process command) := by
  rcases process_cases command with hquiet | ⟨key, hget⟩
  · exact careful_of_uses hquiet
  · rw [hget]
    exact (careful_get key).bind (fun _ => trivial) fun _ _ => id

/-- A command does not begin with a removal. -/
theorem not_doomed_process (command : RespType) : ¬ Doomed key (process command) := by
  rcases process_cases command with hquiet | ⟨other, hget⟩
  · exact not_doomed_of_uses hquiet
  · rw [hget]
    exact fun h => not_expiring_find other (doomed_locked h)

theorem not_doomed_serve (commands : List RespType) : ¬ Doomed key (serve commands) := by
  induction commands with
  | nil => exact id
  | cons command commands ih =>
      intro h
      exact not_doomed_process command (doomed_bind (fun _ => ih) h)

theorem careful_serve (commands : List RespType) : Careful (serve commands) := by
  induction commands with
  | nil => trivial
  | cons command commands ih =>
      exact (careful_process command).bind (fun _ => ih) fun _ _ => not_doomed_serve commands

theorem careful_removeAll (keys : List Key) : Careful (removeAll keys) := by
  induction keys with
  | nil => trivial
  | cons key keys ih =>
      exact ⟨fun _ => ih, fun _ _ _ => Or.inl ⟨key, rfl⟩, fun _ _ _ => rfl⟩

theorem doomed_removeAll {keys : List Key} (h : Doomed key (removeAll keys)) : key ∈ keys := by
  induction keys with
  | nil => exact absurd h id
  | cons other keys ih =>
      rcases h with h | ⟨-, _, h⟩
      · cases h
        exact List.mem_cons_self
      · exact List.mem_cons_of_mem other (ih h)

/-- The timer begins with drawing keys. -/
theorem not_doomed_tryRemoveExpiredKeys (rounds : Nat) :
    ¬ Doomed key (tryRemoveExpiredKeys rounds) := by
  cases rounds with
  | zero => exact id
  | succ rounds =>
      intro h
      rcases doomed_locked h with ⟨_, h⟩
      cases h

theorem careful_tryRemoveExpiredKeys (rounds : Nat) : Careful (tryRemoveExpiredKeys rounds) := by
  induction rounds with
  | zero => trivial
  | succ rounds ih =>
      have hrest : ∀ (keys : List Key) (u : Unit),
          Careful (if 2 ≤ keys.length then tryRemoveExpiredKeys rounds else .done u) := by
        intro keys u
        split
        · exact ih
        · trivial
      -- What comes behind the removals draws first, so it dooms nothing by itself.
      have hnot : ∀ (keys : List Key) (u : Unit) (key : Key),
          ¬ Doomed key (if 2 ≤ keys.length then tryRemoveExpiredKeys rounds else .done u) := by
        intro keys u key
        split
        · exact not_doomed_tryRemoveExpiredKeys rounds
        · exact id
      refine ⟨fun keys => ?_, fun keys key hdoomed => ?_, fun hop => ?_⟩
      · exact (careful_removeAll keys).bind (fun _ => hrest keys ()) fun _ => hnot keys ()
      · exact Or.inr (doomed_removeAll (doomed_bind (fun _ => hnot keys () key) hdoomed))
      · rcases hop with ⟨_, h⟩
        cases h

theorem careful_handleTimer (periods : List Nat) :
    Careful (handleTimer periods) ∧ ∀ key, ¬ Doomed key (handleTimer periods) := by
  induction periods with
  | nil => exact ⟨trivial, fun _ => id⟩
  | cons rounds periods ih =>
      refine ⟨(careful_tryRemoveExpiredKeys rounds).bind (fun _ => ih.1) fun _ => ih.2, ?_⟩
      intro key h
      exact not_doomed_tryRemoveExpiredKeys rounds (doomed_bind (fun _ => ih.2 key) h)

end Programs

/-- The parties, and the clock they have read last. -/
structure Clocked where
  clock : UInt64
  pool : Pool Reply Store Unit

/-- One party runs one section, and the clock has not gone back. -/
inductive Clocked.Step : Clocked → Operation × Moment → Clocked → Prop where
  | turn (clock : UInt64) (pool pool' : Pool Reply Store Unit) (event : Operation × Moment)
      (hclock : clock ≤ event.2.now) (hturn : Turn performOperation pool event pool') :
      Clocked.Step ⟨clock, pool⟩ event ⟨event.2.now, pool'⟩

namespace Clocked

/-- Somebody is about to remove the key as expired. -/
def Doomed (c : Clocked) (key : Key) : Prop :=
  ∃ task ∈ c.pool.tasks, Redis.Doomed key task

/-- The step does not store under a doomed key what has not expired. -/
def SparesDoomed (c : Clocked) (event : Operation × Moment) : Prop :=
  match event.1 with
  | .set key value => hasExpired event.2.now value = true ∨ ¬ c.Doomed key
  -- A push to an existing list keeps the expiry of the list.
  | .push _ key _ => (c.pool.shared.dictionary.lookup key).isSome = true ∨ ¬ c.Doomed key
  | _ => True

/-- The step removes nothing as expired but what has expired. -/
def RemovesExpired (c : Clocked) (event : Operation × Moment) : Prop :=
  match event.1 with
  | .remove .expiry key => ∀ value, c.pool.shared.dictionary.lookup key = some value →
      hasExpired event.2.now value = true
  | _ => True

/-- All parties are careful. -/
def AllCareful (c : Clocked) : Prop :=
  ∀ task ∈ c.pool.tasks, Careful task

/-- All parties are careful, and what is stored under a doomed key has expired. -/
def Sane (c : Clocked) : Prop :=
  c.AllCareful ∧ ∀ key, c.Doomed key → ∀ value,
    c.pool.shared.dictionary.lookup key = some value → hasExpired c.clock value = true

end Clocked

theorem hasExpired_mono {α : Type} {now now' : UInt64} {value : DictionaryValue α} (h : now ≤ now')
    (hexpired : hasExpired now value = true) : hasExpired now' value = true := by
  unfold hasExpired at hexpired ⊢
  cases hexpiry : value.expiryTimestamp with
  | none =>
      rw [hexpiry] at hexpired
      cases hexpired
  | some expiry =>
      rw [hexpiry] at hexpired
      have hlt : expiry < now := of_decide_eq_true hexpired
      exact decide_eq_true (UInt64.lt_of_lt_of_le hlt h)

/-- What is found expired has expired. -/
theorem expired_of_finds {key : Key} {op : Operation} {moment : Moment} {s : Store}
    (h : Finds key op (performOperation op moment s).1) :
    (performOperation op moment s).2 = s ∧ Expired moment.now key s.dictionary := by
  cases op with
  | find other =>
      rcases h with ⟨rfl, hfound⟩
      exact ⟨rfl, lookUp_eq_expired_iff.mp hfound⟩
  | draw =>
      have hany := (List.mem_filter.mp h).2
      rcases (Option.any_eq_true _ _).mp hany with ⟨value, hvalue, hexpired⟩
      exact ⟨rfl, value, hvalue, hexpired⟩
  | _ => exact absurd h id

/-- A push to an existing list keeps the expiry of the list. -/
theorem hasExpired_push {d : Dictionary} {side : Side} {key : Key} {values : List RespString}
    {now : UInt64} (hsome : (d.lookup key).isSome = true)
    (hall : ∀ value, d.lookup key = some value → hasExpired now value = true) :
    ∀ value, (push side key values d).2.lookup key = some value → hasExpired now value = true := by
  intro value hvalue
  unfold push at hvalue
  cases hstored : d.lookup key with
  | none =>
      rw [hstored] at hsome
      cases hsome
  | some stored =>
      rcases stored with ⟨stored, expiry⟩
      rw [hstored] at hvalue
      cases stored with
      | array list =>
          simp only [AList.lookup_insert, Option.some.injEq] at hvalue
          -- The list has another value now, and the same expiry.
          have hexpired := hall ⟨.array list, expiry⟩ hstored
          subst hvalue
          exact hexpired
      | _ => exact hall value hvalue

/-- No push concerns another key. -/
theorem lookup_push_ne {d : Dictionary} {side : Side} {key other : Key} {values : List RespString}
    (h : other ≠ key) : (push side key values d).2.lookup other = d.lookup other := by
  unfold push
  split
  · exact AList.lookup_insert_ne h
  · exact AList.lookup_insert_ne h
  · rfl

section Steps

variable {clock : UInt64} {s : Store} {tasks : List (Program Unit)} {op : Operation}
  {moment : Moment}

/-- What is stored under a doomed key stays expired. -/
theorem stays_expired {key : Key} (hclock : clock ≤ moment.now)
    (hdoomed : Clocked.Doomed ⟨clock, ⟨s, tasks⟩⟩ key)
    (hspares : Clocked.SparesDoomed ⟨clock, ⟨s, tasks⟩⟩ (op, moment))
    (hall : ∀ value, s.dictionary.lookup key = some value → hasExpired clock value = true) :
    ∀ value, (performOperation op moment s).2.dictionary.lookup key = some value →
      hasExpired moment.now value = true := by
  -- The clock only goes on, so what had expired still has.
  have hold : ∀ value, s.dictionary.lookup key = some value → hasExpired moment.now value = true :=
    fun value hvalue => hasExpired_mono hclock (hall value hvalue)
  intro value hvalue
  cases op with
  | set other stored =>
      by_cases hsame : key = other
      · subst hsame
        have hstored := (AList.lookup_insert s.dictionary).symm.trans hvalue
        cases hstored
        exact hspares.resolve_right fun hnot => hnot hdoomed
      · exact hold value ((AList.lookup_insert_ne hsame).symm.trans hvalue)
  | remove cause other =>
      by_cases hsame : key = other
      · subst hsame
        have hgone := (AList.lookup_erase key s.dictionary).symm.trans hvalue
        cases hgone
      · exact hold value ((AList.lookup_erase_ne hsame).symm.trans hvalue)
  | push side other values =>
      by_cases hsame : key = other
      · subst hsame
        have hsome := hspares.resolve_right fun hnot => hnot hdoomed
        exact hasExpired_push hsome hold value hvalue
      · exact hold value ((lookup_push_ne hsame).symm.trans hvalue)
  | openDump =>
      refine hold value ?_
      unfold performOperation at hvalue
      simp only at hvalue
      split at hvalue <;> exact hvalue
  | _ => exact hold value hvalue

end Steps

namespace Clocked

theorem AllCareful.step {c c' : Clocked} {event : Operation × Moment} (h : c.AllCareful)
    (hstep : Step c event c') : c'.AllCareful := by
  cases hstep with
  | turn clock pool pool' event hclock hturn =>
      cases hturn with
      | take s before after op next moment =>
          unfold AllCareful at h ⊢
          rw [List.forall_mem_append, List.forall_mem_cons] at h ⊢
          exact ⟨h.1, h.2.1.1 _, h.2.2⟩

/-- What is doomed has expired, as long as doomed keys are spared. -/
theorem Sane.step {c c' : Clocked} {event : Operation × Moment} (h : c.Sane)
    (hspares : c.SparesDoomed event) (hstep : Step c event c') : c'.Sane := by
  have hcareful : c'.AllCareful := h.1.step hstep
  rcases h with ⟨hcareful', hdoomed⟩
  refine ⟨hcareful, ?_⟩
  cases hstep with
  | turn clock pool pool' event hclock hturn =>
      cases hturn with
      | take s before after op next moment =>
          have hold : ∀ key, Clocked.Doomed ⟨clock, ⟨s, before ++ .locked op next :: after⟩⟩ key →
              ∀ value, (performOperation op moment s).2.dictionary.lookup key = some value →
                hasExpired moment.now value = true :=
            fun key hkey => stays_expired hclock hkey hspares (hdoomed key hkey)
          rintro key ⟨task, htask, hkey⟩
          rcases List.mem_append.mp htask with hbefore | hafter
          · exact hold key ⟨task, List.mem_append_left _ hbefore, hkey⟩
          · rcases List.mem_cons.mp hafter with rfl | hafter
            · -- The party that ran: it goes on removing, or has found the key expired.
              have hlocked := hcareful' (.locked op next)
                (List.mem_append_right before List.mem_cons_self)
              rcases hlocked.2.1 _ key hkey with hexpiring | hfinds
              · exact hold key ⟨.locked op next, List.mem_append_right before List.mem_cons_self,
                  Or.inr ⟨hexpiring, _, hkey⟩⟩
              · rcases expired_of_finds hfinds with ⟨hsame, value, hvalue, hexpired⟩
                intro value' hvalue'
                simp only [hsame] at hvalue'
                rw [hvalue] at hvalue'
                cases hvalue'
                exact hexpired
            · exact hold key ⟨task, List.mem_append_right before
                (List.mem_cons_of_mem _ hafter), hkey⟩

/-- A step from such a state removes nothing as expired but what has expired. -/
theorem Sane.removesExpired {c c' : Clocked} {event : Operation × Moment} (h : c.Sane)
    (hstep : Step c event c') : c.RemovesExpired event := by
  cases hstep with
  | turn clock pool pool' event hclock hturn =>
      cases hturn with
      | take s before after op next moment =>
          unfold RemovesExpired
          split
          · next key hop =>
              intro value hvalue
              have hop : op = .remove .expiry key := hop
              subst hop
              have hkey : Redis.Doomed key (.locked (.remove .expiry key) next) := Or.inl rfl
              have hmem : Sections.locked (.remove .expiry key) next ∈
                  before ++ .locked (.remove .expiry key) next :: after :=
                List.mem_append_right before List.mem_cons_self
              exact hasExpired_mono hclock (h.2 key ⟨_, hmem, hkey⟩ value hvalue)
          · trivial

/-- Somebody removes what has not expired. -/
def CanRemoveLive (c : Clocked) : Prop :=
  ∃ t c', Trace Step c t c' ∧ ∃ x ∈ t, ¬ RemovesExpired x.1 x.2

/-- A live entry under a doomed key can be removed: nobody but the party that is about
    to do so has to run, and the clock stands still. -/
theorem exists_removal {key : Key} {task : Program Unit} (hcareful : Careful task)
    (hdoomed : Redis.Doomed key task) {now : UInt64} {value : DictionaryValue RespType}
    (hlive : ¬ hasExpired now value = true) (before after : List (Program Unit)) (s : Store)
    (hvalue : s.dictionary.lookup key = some value) :
    CanRemoveLive ⟨now, ⟨s, before ++ task :: after⟩⟩ := by
  induction task generalizing s with
  | done u => exact absurd hdoomed id
  | locked op next ih =>
      have hstep : Step ⟨now, ⟨s, before ++ .locked op next :: after⟩⟩ (op, Moment.ordinary now)
          ⟨now, ⟨(performOperation op (Moment.ordinary now) s).2,
            before ++ next (performOperation op (Moment.ordinary now) s).1 :: after⟩⟩ :=
        Step.turn now _ _ _ (UInt64.le_refl now) (Turn.take s before after op next _)
      -- The induction is on what the party still has to do.
      by_cases hnow : op = .remove .expiry key
      · -- This is the removal, and what it removes is live.
        subst hnow
        refine ⟨_, _, Trace.single hstep, _, List.mem_singleton_self _, fun hremoves => ?_⟩
        exact hlive (hremoves value hvalue)
      · rcases hdoomed with hdoomed | ⟨hexpiring, r, hdoomed⟩
        · exact absurd hdoomed hnow
        · -- Another key comes first. What follows does not depend on what was there.
          rcases hcareful with ⟨hnext, -, hsame⟩
          have hrest := hsame hexpiring r (performOperation op (Moment.ordinary now) s).1
          rw [hrest] at hdoomed
          have hvalue' : (performOperation op (Moment.ordinary now) s).2.dictionary.lookup key =
              some value := by
            rcases hexpiring with ⟨other, rfl⟩
            have hne : key ≠ other := by
              rintro rfl
              exact hnow rfl
            exact (AList.lookup_erase_ne hne).trans hvalue
          rcases ih _ (hnext _) hdoomed _ hvalue' with ⟨t, c', ht, x, hx, hlive'⟩
          exact ⟨_, c', Trace.cons _ _ _ t c' hstep ht, x, List.mem_cons_of_mem _ hx, hlive'⟩

/-- Storing something live under a doomed key makes it possible that it is removed. -/
theorem canRemoveLive_of_stored {key : Key} {clock : UInt64} {pool : Pool Reply Store Unit}
    {value : DictionaryValue RespType} (hcareful : AllCareful ⟨clock, pool⟩)
    (hdoomed : Clocked.Doomed ⟨clock, pool⟩ key) (hlive : ¬ hasExpired clock value = true)
    (hvalue : pool.shared.dictionary.lookup key = some value) : CanRemoveLive ⟨clock, pool⟩ := by
  rcases pool with ⟨s, tasks⟩
  rcases hdoomed with ⟨task, htask, hdoomed⟩
  have htask' := hcareful task htask
  rcases List.append_of_mem htask with ⟨before, after, rfl⟩
  exact exists_removal htask' hdoomed hlive before after s hvalue

/-- A doomed key stays doomed while other parties run. -/
theorem doomed_of_not_expiring {key : Key} {clock clock' : UInt64} {s s' : Store}
    {before after : List (Program Unit)} {op : Operation} {next : Reply op → Program Unit}
    {task : Program Unit} (hop : ¬ op.Expiring)
    (h : Clocked.Doomed ⟨clock, ⟨s, before ++ .locked op next :: after⟩⟩ key) :
    Clocked.Doomed ⟨clock', ⟨s', before ++ task :: after⟩⟩ key := by
  rcases h with ⟨other, hmem, hdoomed⟩
  refine ⟨other, ?_, hdoomed⟩
  rcases List.mem_append.mp hmem with hbefore | hafter
  · exact List.mem_append_left _ hbefore
  · rcases List.mem_cons.mp hafter with rfl | hafter
    · exact absurd (doomed_locked hdoomed) hop
    · exact List.mem_append_right before (List.mem_cons_of_mem task hafter)

/-- A step that does not spare a doomed key makes it possible that something live is
    removed. -/
theorem canRemoveLive_of_not_spares {c c' : Clocked} {event : Operation × Moment}
    (hcareful : c.AllCareful) (hspares : ¬ c.SparesDoomed event) (hstep : Step c event c') :
    c'.CanRemoveLive := by
  have hcareful' := hcareful.step hstep
  cases hstep with
  | turn clock pool pool' event hclock hturn =>
      cases hturn with
      | take s before after op next moment =>
          unfold SparesDoomed at hspares
          split at hspares
          · next key value hop =>
              have hop : op = .set key value := hop
              subst hop
              rw [not_or, not_not] at hspares
              have hquiet : ¬ (Operation.set key value).Expiring := by
                rintro ⟨_, h⟩
                cases h
              exact canRemoveLive_of_stored hcareful' (doomed_of_not_expiring hquiet hspares.2)
                hspares.1 (AList.lookup_insert s.dictionary)
          · next side key values hop =>
              have hop : op = .push side key values := hop
              subst hop
              rw [not_or, not_not, Option.not_isSome_iff_eq_none] at hspares
              have hquiet : ¬ (Operation.push side key values).Expiring := by
                rintro ⟨_, h⟩
                cases h
              have hnew : (push side key values s.dictionary).2.lookup key =
                  some ⟨.array (pushAll side [] values), none⟩ := by
                have hnone : s.dictionary.lookup key = none := hspares.1
                unfold push
                rw [hnone]
                exact AList.lookup_insert s.dictionary
              -- A new list does not expire.
              have hlive : ¬ hasExpired moment.now
                  (⟨.array (pushAll side [] values), none⟩ : DictionaryValue RespType) = true :=
                Bool.false_ne_true
              exact canRemoveLive_of_stored hcareful' (doomed_of_not_expiring hquiet hspares.2)
                hlive hnew
          · exact absurd trivial hspares

/-- The timer and so many clients. -/
def start (clock : UInt64) (s : Store) (periods : List Nat) (clients : List (List RespType)) :
    Clocked :=
  ⟨clock, ⟨s, handleTimer periods :: clients.map serve⟩⟩

variable {clock : UInt64} {s : Store} {periods : List Nat} {clients : List (List RespType)}

theorem allCareful_start : (start clock s periods clients).AllCareful := by
  refine List.forall_mem_cons.mpr ⟨(careful_handleTimer periods).1, fun task htask => ?_⟩
  rcases List.mem_map.mp htask with ⟨commands, -, rfl⟩
  exact careful_serve commands

/-- Nothing is doomed yet. -/
theorem sane_start : (start clock s periods clients).Sane := by
  refine ⟨allCareful_start, ?_⟩
  rintro key ⟨task, htask, hdoomed⟩
  rcases List.mem_cons.mp htask with rfl | htask
  · exact absurd hdoomed ((careful_handleTimer periods).2 key)
  · rcases List.mem_map.mp htask with ⟨commands, -, rfl⟩
    exact absurd hdoomed (not_doomed_serve commands)

/-- If no step of a run stores under a doomed key what has not expired, then all that is
    removed as expired in the run has expired. If a step does, then a run that has the
    same steps up to there removes something live. -/
theorem removals_expired {t : List (Clocked × Operation × Moment)} {c : Clocked}
    (h : Trace Step (start clock s periods clients) t c) :
    ((∀ x ∈ t, SparesDoomed x.1 x.2) → ∀ x ∈ t, RemovesExpired x.1 x.2) ∧
      ∀ x ∈ t, ¬ SparesDoomed x.1 x.2 → ∃ t₁ t₂ t₃ c', t = t₁ ++ x :: t₂ ∧
        Trace Step (start clock s periods clients) (t₁ ++ x :: t₃) c' ∧
          ∃ y ∈ t₃, ¬ RemovesExpired y.1 y.2 := by
  constructor
  · intro hspares x hx
    -- Every state of the run is sane, so no removal in it hits a live entry.
    have hsane := (h.invariant (fun _ _ _ hinv hm hstep => Sane.step hinv hm hstep) sane_start
      hspares).1 x hx
    rcases h.split hx with ⟨_, _, _, _, _, hstep, _⟩
    exact hsane.removesExpired hstep
  · intro x hx hspares
    rcases h.split hx with ⟨t₁, t₂, c', rfl, hfirst, hstep, -⟩
    have hkeeps : ∀ (c : Clocked) (event : Operation × Moment) (c' : Clocked), c.AllCareful →
        True → Step c event c' → c'.AllCareful :=
      fun _ _ _ hinv _ hstep => hinv.step hstep
    have hcareful : x.1.AllCareful :=
      (hfirst.invariant hkeeps allCareful_start (fun _ _ => trivial)).2
    -- Behind the step the run can be continued by the removal of what was stored.
    rcases canRemoveLive_of_not_spares hcareful hspares hstep with ⟨t₃, c'', hrest, hlive⟩
    exact ⟨t₁, t₂, t₃, c'', rfl, hfirst.append (Trace.cons x.1 x.2 c' t₃ c'' hstep hrest), hlive⟩

/-- A key with an expiry that has passed at the time 2. -/
def expiredStore : Store :=
  ⟨AList.singleton (bytes "k") ⟨.string ⟨bytes "v", true⟩, some 1⟩, none⟩

/-- The pool after one of the parties has run a section at the time 2. -/
def advanced (pool : Pool Reply Store Unit) (party : Nat) : Pool Reply Store Unit :=
  (pool.advance performOperation party (Moment.ordinary 2)).2

theorem step_advanced (pool : Pool Reply Store Unit) (party : Nat) (op : Operation)
    (next : Reply op → Program Unit) (h : pool.tasks[party]? = some (.locked op next)) :
    Step ⟨2, pool⟩ (op, Moment.ordinary 2) ⟨2, advanced pool party⟩ :=
  Step.turn 2 pool _ (op, Moment.ordinary 2) (UInt64.le_refl 2) (Pool.turn_advance h)

/-- A `GET` removes what has expired, though another client stores something else in between. -/
theorem removals_expired_get_set :
    let pool := (start 2 expiredStore [] [[commandOf [bytes "GET", bytes "k"]],
      [commandOf [bytes "SET", bytes "j", bytes "w"]]]).pool
    RemovesExpired ⟨2, advanced (advanced pool 1) 2⟩
      (.remove .expiry (bytes "k"), Moment.ordinary 2) := by
  intro pool
  have hfind := step_advanced pool 1 (.find (bytes "k")) _ rfl
  have hset := step_advanced (advanced pool 1) 2
    (.set (bytes "j") ⟨.string ⟨bytes "w", true⟩, none⟩) _ rfl
  have hremove := step_advanced (advanced (advanced pool 1) 2) 1 (.remove .expiry (bytes "k")) _ rfl
  -- The key that is stored is not the one that was found expired.
  have hfree : ¬ Clocked.Doomed ⟨2, advanced pool 1⟩ (bytes "j") := by
    rintro ⟨task, htask, hdoomed⟩
    rcases List.mem_cons.mp htask with rfl | htask
    · cases hdoomed
    rcases List.mem_cons.mp htask with rfl | htask
    · rcases hdoomed with hop | ⟨-, r, hnext⟩
      · injection hop with _ hkey
        exact absurd hkey (by decide)
      · cases hnext
    · rcases List.mem_map.mp htask with ⟨commands, -, rfl⟩
      exact not_doomed_serve commands hdoomed
  refine (removals_expired (Trace.cons _ _ _ _ _ hfind (Trace.cons _ _ _ _ _ hset
    (Trace.single hremove)))).1 ?_ _
      (List.mem_cons_of_mem _ (List.mem_cons_of_mem _ (List.mem_singleton_self _)))
  exact List.forall_mem_cons.mpr ⟨trivial, List.forall_mem_cons.mpr ⟨Or.inr hfree,
    List.forall_mem_singleton.mpr trivial⟩⟩

/-- A `SET` that comes between is undone. -/
theorem removes_live :
    ¬ ∀ (clock : UInt64) (s : Store) (periods : List Nat) (clients : List (List RespType))
      (t : List (Clocked × Operation × Moment)) (c : Clocked),
      Trace Step (start clock s periods clients) t c → ∀ x ∈ t, RemovesExpired x.1 x.2 := by
  intro h
  let pool := (start 2 expiredStore [] [[commandOf [bytes "GET", bytes "k"]],
    [commandOf [bytes "SET", bytes "k", bytes "w"]]]).pool
  have hfind := step_advanced pool 1 (.find (bytes "k")) _ rfl
  have hset := step_advanced (advanced pool 1) 2
    (.set (bytes "k") ⟨.string ⟨bytes "w", true⟩, none⟩) _ rfl
  have hremove := step_advanced (advanced (advanced pool 1) 2) 1 (.remove .expiry (bytes "k")) _ rfl
  have hexpired := h 2 expiredStore [] _ _ _
    (Trace.cons _ _ _ _ _ hfind (Trace.cons _ _ _ _ _ hset (Trace.single hremove))) _
    (List.mem_cons_of_mem _ (List.mem_cons_of_mem _ (List.mem_singleton_self _)))
    ⟨.string ⟨bytes "w", true⟩, none⟩ rfl
  cases hexpired

end Clocked

end Redis

end CodingChallenges
