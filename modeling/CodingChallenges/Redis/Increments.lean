import CodingChallenges.Library.ReadModifyWrite
import CodingChallenges.Redis.CommandProcessor

/-!
# Concurrent Increments

What several clients do to a number with `INCR`.

`increment` reads the number under the shared lock, gives the lock up, and stores
the number plus one with a call of `set`. So each `INCR` is a read and a write of a
counter that other clients can come between, and the pool of clients runs like
such a counter does (`shows_turn`). An increment is lost as soon as one client
looks the key up while another has yet to store what it made of it.

## Main definitions

* `Shows`: Where in its increments a client is.
* `Midway`: A client has looked the key up and not stored the sum.
* `StartsAlone`: A step that is not a lookup while some client is midway.

## Theorems

* `shows_turn`: The steps of the clients are those of a counter.
* `increments_counted_iff`: When no increment is lost.
-/

namespace CodingChallenges

namespace Redis

/-- The command that increments the number under a key. -/
def incr (key : Key) : RespType :=
  commandOf [bytes "INCR", key]

section Numbers

/-- The number under a key, without an expiry. -/
def HoldsNumber (d : Dictionary) (key : Key) (n : Int) : Prop :=
  ∃ isBulk, d.lookup key = some ⟨.string ⟨signedDigits n, isBulk⟩, none⟩

theorem fromCharsSigned_whole {n : Int} (hlow : -(intBound : Int) ≤ n) (hhigh : n < intBound) :
    fromCharsSigned intBound (signedDigits n) = some (n, []) := by
  have h : fromCharsSigned intBound (signedDigits n ++ []) = some (n, []) :=
    fromCharsSigned_signedDigits hlow hhigh (fun c hc => by cases hc)
  rwa [List.append_nil] at h

theorem isValidSigned64BitInt_signedDigits {n : Int} (hlow : -(intBound : Int) ≤ n)
    (hhigh : n < intBound) : isValidSigned64BitInt (signedDigits n) = some (Int64.ofInt n) := by
  unfold isValidSigned64BitInt
  rw [fromCharsSigned_whole hlow hhigh]

/-- A key holds one number. -/
theorem HoldsNumber.unique {d : Dictionary} {key : Key} {m n : Int} (hm : HoldsNumber d key m)
    (hn : HoldsNumber d key n) (hmlow : -(intBound : Int) ≤ m) (hmhigh : m < intBound)
    (hnlow : -(intBound : Int) ≤ n) (hnhigh : n < intBound) : m = n := by
  rcases hm with ⟨isBulk, hm⟩
  rcases hn with ⟨isBulk', hn⟩
  rw [hm] at hn
  have hdigits : signedDigits m = signedDigits n := by
    injection hn with hn
    injection hn with hn
    injection hn with hn
    injection hn
  -- Reading the digits gives back either number.
  have hread := fromCharsSigned_whole hmlow hmhigh
  rw [hdigits, fromCharsSigned_whole hnlow hnhigh] at hread
  exact ((Prod.mk.inj (Option.some.inj hread)).1).symm

theorem toInt_ofInt {n : Int} (hlow : -(intBound : Int) ≤ n) (hhigh : n < intBound) :
    (Int64.ofInt n).toInt = n := by
  refine Int64.toInt_ofInt_of_le ?_ ?_
  · exact hlow
  · exact hhigh

theorem toInt_succ {n : Int64} (h : n.toInt + 1 < intBound) : (n + 1).toInt = n.toInt + 1 := by
  have hlow := Int64.le_toInt n
  have hone : (1 : Int64).toInt = 1 := rfl
  have hbound : ((intBound : Nat) : Int) = 2 ^ 63 := rfl
  rw [Int64.toInt_add, hone]
  exact Int.bmod_eq_of_le (by omega) (by omega)

end Numbers

/-- What follows when the key was looked up, with so many increments to come. -/
def afterFind (key : Key) (left : Nat) (found : Found) : Program Unit :=
  (adjustFound (· + 1) key found >>= fun response => .done (Answer.response response)) >>= fun _ =>
    serve (List.replicate left (incr key))

/-- What follows when the number was read. -/
def afterPeek (key : Key) (left : Nat) (n : Int64) (timestamp : Option UInt64) : Program Unit :=
  .locked (.set key ⟨.string ⟨signedDigits (n + 1).toInt, false⟩, timestamp⟩) fun _ =>
    serve (List.replicate left (incr key))

/-- Where in its increments a client is. -/
inductive Shows (key : Key) : Program Unit → Party → Prop where
  | idle : Shows key (.done ()) ⟨0, none⟩
  | start (left : Nat) : Shows key (.locked (.find key) (afterFind key left)) ⟨left + 1, none⟩
  | found (left : Nat) (n : Int64) :
      Shows key (.locked (.peek key) (afterPeek key left n)) ⟨left, some n.toInt⟩
  | storing (left : Nat) (n : Int64) : Shows key (afterPeek key left n none) ⟨left, some n.toInt⟩

theorem shows_serve (key : Key) (left : Nat) :
    Shows key (serve (List.replicate left (incr key))) ⟨left, none⟩ := by
  cases left with
  | zero => exact Shows.idle
  | succ left => exact Shows.start left

/-- The client has looked the key up and not stored the sum. -/
def Midway {α : Type} : Program α → Prop
  | .locked (.peek _) _ => True
  | .locked (.set _ _) _ => True
  | _ => False

theorem Shows.midway_iff {key : Key} {task : Program Unit} {p : Party} (h : Shows key task p) :
    Midway task ↔ p.held.isSome = true := by
  cases h with
  | idle => exact iff_of_false id Bool.false_ne_true
  | start left => exact iff_of_false id Bool.false_ne_true
  | found left n => exact iff_of_true trivial rfl
  | storing left n => exact iff_of_true trivial rfl

/-- The step is not a lookup while some client is midway. -/
def StartsAlone (p : Pool Reply Store Unit) (event : Operation × Moment) : Prop :=
  match event.1 with
  | .find _ => ∀ task ∈ p.tasks, ¬ Midway task
  | _ => True

/-- The pool is where the counter is, and all numbers about are in range. -/
def ShowsCounter (key : Key) (first target : Int) (p : Pool Reply Store Unit) (c : Counter) :
    Prop :=
  HoldsNumber p.shared.dictionary key c.value ∧ List.Forall₂ (Shows key) p.tasks c.parties ∧
    c.Bounded first target

theorem forall₂_join {α β : Type} {R : α → β → Prop} {before after : List α}
    {before' after' : List β} {a : α} {b : β} (hbefore : List.Forall₂ R before before')
    (hab : R a b) (hafter : List.Forall₂ R after after') :
    List.Forall₂ R (before ++ a :: after) (before' ++ b :: after') :=
  List.rel_append hbefore (List.Forall₂.cons hab hafter)

/-- Nobody is midway exactly if no party holds a value. -/
theorem forall_midway_iff {key : Key} {tasks : List (Program Unit)} {parties : List Party}
    (h : List.Forall₂ (Shows key) tasks parties) :
    (∀ task ∈ tasks, ¬ Midway task) ↔ ∀ p ∈ parties, p.held = none := by
  induction h with
  | nil =>
      refine iff_of_true ?_ ?_
      · exact fun task htask => absurd htask List.not_mem_nil
      · exact fun p hp => absurd hp List.not_mem_nil
  | cons hshows _ ih =>
      rw [List.forall_mem_cons, List.forall_mem_cons, ih, hshows.midway_iff,
        Option.not_isSome_iff_eq_none]

section Turns

variable {key : Key} {first target : Int}

theorem lookUp_number {d : Dictionary} {n : Int} (h : HoldsNumber d key n) (moment : Moment) :
    ∃ isBulk, lookUp moment key d = .live (.string ⟨signedDigits n, isBulk⟩) := by
  rcases h with ⟨isBulk, h⟩
  refine ⟨isBulk, ?_⟩
  unfold lookUp
  rw [h]
  rfl

theorem afterFind_number {n : Int} (isBulk : Bool) (left : Nat) (hlow : -(intBound : Int) ≤ n)
    (hhigh : n < intBound) :
    afterFind key left (.live (.string ⟨signedDigits n, isBulk⟩)) =
      .locked (.peek key) (afterPeek key left (Int64.ofInt n)) := by
  unfold afterFind adjustFound
  simp only [isValidSigned64BitInt_signedDigits hlow hhigh]
  rfl

/-- A section of a client is a step of the counter, or the reading of the expiry. -/
theorem shows_turn (hlow : -(intBound : Int) ≤ first) (hhigh : target < intBound)
    (p : Pool Reply Store Unit) (event : Operation × Moment) (p' : Pool Reply Store Unit)
    (c : Counter) (h : ShowsCounter key first target p c)
    (hturn : Turn performOperation p event p') :
    (ShowsCounter key first target p' c ∧ StartsAlone p event) ∨
      ∃ access c', Counter.Step c access c' ∧ ShowsCounter key first target p' c' ∧
        (StartsAlone p event ↔ c.Exclusive access) := by
  rcases c with ⟨value, parties⟩
  rcases h with ⟨hvalue, hshows, hbounded⟩
  cases hturn with
  | take s before after op next moment =>
      rcases forall₂_middle hshows with ⟨before', party, after', rfl, hbefore, hparty, hafter⟩
      -- A client computes with 64 bits, so what it holds has to be in range.
      have hrange : -(intBound : Int) ≤ value ∧ value < intBound := by
        have hv := hbounded.1
        simp only at hv
        omega
      cases hparty with
      | start left =>
          -- The lookup finds the number.
          right
          have hstep := Counter.Step.read value before' after' left
          refine ⟨.read, _, hstep, ⟨hvalue, ?_, hbounded.step hstep⟩, forall_midway_iff hshows⟩
          rcases lookUp_number hvalue moment with ⟨isBulk, hfound⟩
          refine forall₂_join hbefore ?_ hafter
          change Shows key (afterFind key left (lookUp moment key s.dictionary)) _
          rw [hfound, afterFind_number isBulk left hrange.1 hrange.2]
          have hshown : Shows key _ ⟨left, some (Int64.ofInt value).toInt⟩ :=
            Shows.found left (Int64.ofInt value)
          rwa [toInt_ofInt hrange.1 hrange.2] at hshown
      | found left n =>
          left
          -- The counter does not move: no client removes the number, or gives it an expiry.
          refine ⟨⟨hvalue, forall₂_join hbefore ?_ hafter, hbounded⟩, trivial⟩
          rcases hvalue with ⟨isBulk, hvalue⟩
          have hreply : (performOperation (.peek key) moment s).1 = none := by
            unfold performOperation
            simp only
            rw [hvalue]
            rfl
          rw [hreply]
          exact Shows.storing left n
      | storing left n =>
          right
          have hstep := Counter.Step.write value before' after' left n.toInt
          have hbounded' := hbounded.step hstep
          -- The sum does not wrap around, since the write leaves the counter in its bounds.
          have hsum : (n + 1).toInt = n.toInt + 1 := by
            have hv := hbounded'.1
            simp only at hv
            exact toInt_succ (by omega)
          refine ⟨.write, _, hstep, ⟨⟨false, ?_⟩, ?_, hbounded'⟩, iff_of_true trivial trivial⟩
          · rw [← hsum]
            exact AList.lookup_insert s.dictionary
          · exact forall₂_join hbefore (shows_serve key left) hafter

end Turns

/-- Clients with so many increments each. -/
def incrementing (key : Key) (counts : List Nat) : List (Program Unit) :=
  counts.map fun n => serve (List.replicate n (incr key))

theorem shows_incrementing (key : Key) (value : Int) (counts : List Nat) :
    List.Forall₂ (Shows key) (incrementing key counts) (Counter.start value counts).parties := by
  unfold incrementing Counter.start
  induction counts with
  | nil => exact List.Forall₂.nil
  | cons n counts ih => exact List.Forall₂.cons (shows_serve key n) ih

/-- A client that is done has no increments left. -/
theorem shows_done {key : Key} {tasks : List (Program Unit)} {parties : List Party}
    (h : List.Forall₂ (Shows key) tasks parties) (hdone : ∀ task ∈ tasks, task = .done ()) :
    ∀ p ∈ parties, p = ⟨0, none⟩ := by
  induction h with
  | nil => exact fun p hp => absurd hp List.not_mem_nil
  | cons hshows _ ih =>
      rw [List.forall_mem_cons] at hdone ⊢
      rcases hdone with ⟨rfl, hdone⟩
      refine ⟨?_, ih hdone⟩
      cases hshows
      rfl

/-- When all clients are done, all their increments have been counted exactly if no
    client looked the key up while another was between its lookup and its store. -/
theorem increments_counted_iff (key : Key) (n : Int64) (counts : List Nat) (s s' : Store)
    (tasks : List (Program Unit)) (t : List (Pool Reply Store Unit × Operation × Moment))
    (hstart : HoldsNumber s.dictionary key n.toInt)
    (hfits : n.toInt + (counts.sum : Nat) < intBound)
    (h : Trace (Turn performOperation) ⟨s, incrementing key counts⟩ t ⟨s', tasks⟩)
    (hdone : ∀ task ∈ tasks, task = .done ()) :
    HoldsNumber s'.dictionary key (n.toInt + (counts.sum : Nat)) ↔
      ∀ x ∈ t, StartsAlone x.1 x.2 := by
  have hlow : -(intBound : Int) ≤ n.toInt := Int64.le_toInt n
  have hshows : ShowsCounter key n.toInt (n.toInt + (counts.sum : Nat)) ⟨s, incrementing key counts⟩
      (Counter.start n.toInt counts) :=
    ⟨hstart, shows_incrementing key n.toInt counts, Counter.bounded_start⟩
  rcases h.simulates (shows_turn hlow hfits) hshows with ⟨t', c, hrun, hfinal, hall⟩
  rcases hfinal with ⟨hvalue, hparties, hbounded⟩
  rw [hall, ← Counter.counts_iff hrun (shows_done hparties hdone)]
  -- Two numbers in range that the key holds are the same.
  have hrange := hbounded.1
  constructor
  · intro hnumber
    exact hvalue.unique hnumber (by omega) (by omega) (by omega) hfits
  · rintro heq
    rwa [heq] at hvalue

/-- Two clients one after the other, and the first one again. -/
theorem increments_counted_iff_in_turn :
    HoldsNumber ((Pool.mk ⟨AList.singleton (bytes "k") ⟨.string ⟨bytes "7", true⟩, none⟩, none⟩
      (incrementing (bytes "k") [2, 1])).schedule performOperation
        [(0, Moment.ordinary 0), (0, Moment.ordinary 0), (0, Moment.ordinary 0),
          (1, Moment.ordinary 1), (1, Moment.ordinary 1), (1, Moment.ordinary 1),
          (0, Moment.ordinary 2), (0, Moment.ordinary 2),
          (0, Moment.ordinary 2)]).2.shared.dictionary
      (bytes "k") 10 := by
  -- Nobody is midway when a client looks the key up.
  have hpair : ∀ {task task' : Program Unit}, ¬ Midway task → ¬ Midway task' →
      ∀ x ∈ [task, task'], ¬ Midway x :=
    fun h h' => List.forall_mem_cons.mpr ⟨h, List.forall_mem_singleton.mpr h'⟩
  refine (increments_counted_iff (bytes "k") 7 [2, 1] _ _ _ _ ⟨true, rfl⟩ (by decide)
    (Pool.trace_schedule _ _) ?_).mpr ?_
  · exact List.forall_mem_cons.mpr ⟨rfl, List.forall_mem_singleton.mpr rfl⟩
  · exact List.forall_mem_cons.mpr ⟨hpair id id, List.forall_mem_cons.mpr ⟨trivial,
      List.forall_mem_cons.mpr ⟨trivial, List.forall_mem_cons.mpr ⟨hpair id id,
        List.forall_mem_cons.mpr ⟨trivial, List.forall_mem_cons.mpr ⟨trivial,
          List.forall_mem_cons.mpr ⟨hpair id id, List.forall_mem_cons.mpr ⟨trivial,
            List.forall_mem_singleton.mpr trivial⟩⟩⟩⟩⟩⟩⟩⟩

/-- Two clients that look the number up before either stores the sum. -/
theorem increments_lost :
    ¬ ∀ (key : Key) (n : Int64) (counts : List Nat) (s s' : Store) (tasks : List (Program Unit))
      (t : List (Pool Reply Store Unit × Operation × Moment)),
      HoldsNumber s.dictionary key n.toInt → n.toInt + (counts.sum : Nat) < intBound →
        Trace (Turn performOperation) ⟨s, incrementing key counts⟩ t ⟨s', tasks⟩ →
          (∀ task ∈ tasks, task = .done ()) →
            HoldsNumber s'.dictionary key (n.toInt + (counts.sum : Nat)) := by
  intro h
  have htwo := h (bytes "k") 0 [1, 1]
    ⟨AList.singleton (bytes "k") ⟨.string ⟨bytes "0", true⟩, none⟩, none⟩ _ _ _ ⟨true, rfl⟩
    (by decide) (Pool.trace_schedule _ [(0, Moment.ordinary 0), (1, Moment.ordinary 0),
      (0, Moment.ordinary 0), (0, Moment.ordinary 0), (1, Moment.ordinary 0),
      (1, Moment.ordinary 0)])
    (List.forall_mem_cons.mpr ⟨rfl, List.forall_mem_singleton.mpr rfl⟩)
  -- The key holds the sum of the last one to store it.
  have hone : HoldsNumber (AList.singleton (bytes "k") ⟨.string ⟨bytes "1", false⟩, none⟩)
      (bytes "k") 1 := ⟨false, rfl⟩
  have hsame := hone.unique htwo (by decide) (by decide) (by decide) (by decide)
  exact absurd hsame (by decide)

end Redis

end CodingChallenges
