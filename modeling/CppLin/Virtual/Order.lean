import CppLin.Lib.Causal
import CppLin.Virtual.Threads

/-!
The order in which subscribers without filters observe the emitted frames. Frames of
overlapping `send_header` calls may be enqueued in different orders at different
subscribers; frames of calls that do not overlap are in the order of the calls at all.
-/
namespace CppLin.Virt
open Bytes Relay Run Causality

/-- What the consumer of a channel has received or will find in it, in order. -/
def Sys.observed (s : Sys) (ch : Nat) : List Frame := s.received ch ++ (s.bus.chans ch).buf

/-- The subscription is in place and its channel can take a frame. -/
structure Listens (sub : Subscription) (s : Sys) : Prop where
  subscribed : sub ∈ s.bus.subs
  isOpen : (s.bus.chans sub.ch).closed = false
  room : (s.bus.chans sub.ch).isFull = false

instance (sub : Subscription) (s : Sys) : Decidable (Listens sub s) :=
  decidable_of_iff (sub ∈ s.bus.subs ∧ (s.bus.chans sub.ch).closed = false ∧
      (s.bus.chans sub.ch).isFull = false)
    ⟨fun ⟨h₁, h₂, h₃⟩ => ⟨h₁, h₂, h₃⟩, fun ⟨h₁, h₂, h₃⟩ => ⟨h₁, h₂, h₃⟩⟩

/-- The numbered frame an event puts into a channel. -/
def Event.queuedOn (ch : Nat) : Event → Option (Nat × Frame)
  | .enqueued n c f => if c = ch then some (n, f) else none
  | _ => none

/-- The numbered frames put into a channel, in order. -/
def queued (ch : Nat) (es : List Event) : List (Nat × Frame) := es.filterMap (Event.queuedOn ch)

/-- What each event has before it, as far as one subscriber is concerned: a frame is
emitted once, enqueued once and after it was emitted, and its broadcast ends after that. -/
def Needs (ch : Nat) (past : List Event) : Event → Prop
  | .emitted n _ => ∀ g, .emitted n g ∉ past
  | .enqueued n c f => c = ch → .emitted n f ∈ past ∧ ∀ g, .enqueued n ch g ∉ past
  | .ended n => ∃ g, .enqueued n ch g ∈ past
  | .returned _ _ => True

@[simp] theorem queued_append (ch : Nat) (es new : List Event) :
    queued ch (es ++ new) = queued ch es ++ queued ch new := by
  simp [queued]

theorem queued_singleton (ch : Nat) (e : Event) : queued ch [e] = (e.queuedOn ch).toList := by
  cases h : e.queuedOn ch <;> simp [queued, h]

theorem mem_queued {ch n : Nat} {f : Frame} {es : List Event} :
    (n, f) ∈ queued ch es ↔ .enqueued n ch f ∈ es := by
  unfold queued
  rw [List.mem_filterMap]
  constructor
  · rintro ⟨e, he, hq⟩
    cases e with
    | enqueued m c g =>
        simp only [Event.queuedOn] at hq
        split_ifs at hq with hc
        obtain ⟨rfl, rfl⟩ := Prod.mk.inj (Option.some.inj hq)
        exact hc ▸ he
    | _ => cases hq
  · intro h
    exact ⟨_, h, by simp [Event.queuedOn]⟩

theorem queued_nodup {ch : Nat} {es : List Event} (h : Causal (Needs ch) es) :
    ((queued ch es).map Prod.fst).Nodup := by
  induction es using List.reverseRecOn with
  | nil => exact List.nodup_nil
  | append_singleton es e ih =>
      have hlast := h es e [] rfl
      rw [queued_append, queued_singleton]
      cases e with
      | enqueued n c f =>
          simp only [Event.queuedOn]
          by_cases hc : c = ch
          · rw [if_pos hc, Option.toList_some, List.map_append, List.nodup_append]
            refine ⟨ih h.append_left, List.nodup_singleton n, ?_⟩
            intro m hmem k hk
            obtain rfl := List.mem_singleton.mp hk
            rintro rfl
            obtain ⟨⟨m, g⟩, hg, rfl⟩ := List.mem_map.mp hmem
            exact (hlast hc).2 g (mem_queued.mp hg)
          · simpa [hc] using ih h.append_left
      | _ => simpa [Event.queuedOn] using ih h.append_left

/-- The broadcast of one frame has ended before the other frame is emitted. -/
def Precedes (es : List Event) (i j : Nat) : Prop :=
  ∃ l f r, es = l ++ .emitted j f :: r ∧ .ended i ∈ l

/-- At every subscriber a frame whose broadcast had ended comes before one emitted later. -/
theorem Causal.queued_before {ch : Nat} {es : List Event} (h : Causal (Needs ch) es) {i j : Nat}
    (hij : Precedes es i j) {l r : List (Nat × Frame)} {g : Frame}
    (hq : queued ch es = l ++ (j, g) :: r) : ∃ f, (i, f) ∈ l := by
  obtain ⟨l', f, r', hes, hended⟩ := hij
  obtain ⟨L, rest, hL, hl, hrest⟩ := List.filterMap_eq_append_iff.mp hq
  obtain ⟨M, e, N, rfl, hM, he, -⟩ := List.filterMap_eq_cons_iff.mp hrest
  have hje : e = .enqueued j ch g := by
    cases e with
    | enqueued n c k =>
        simp only [Event.queuedOn] at he
        split_ifs at he with hc
        obtain ⟨rfl, rfl⟩ := Prod.mk.inj (Option.some.inj he)
        rw [hc]
    | _ => cases he
  subst hje
  rw [← List.append_assoc] at hL
  have hcause := (h _ _ _ hL rfl).1
  have hpast : Event.ended i ∈ L ++ M := by
    obtain hp | hp := prefix_total hes hL
    · exact hp.subset hended
    · exact absurd (hp.subset hcause) (h _ _ _ hes g)
  obtain ⟨A, B, hAB⟩ := List.append_of_mem hpast
  have hes' : es = A ++ .ended i :: (B ++ .enqueued j ch g :: N) := by
    rw [hL, hAB, List.append_assoc, List.cons_append]
  obtain ⟨k, hk⟩ := h _ _ _ hes'
  refine ⟨k, ?_⟩
  have hmem : (i, k) ∈ queued ch (L ++ M) := by
    rw [mem_queued, hAB]
    exact List.mem_append_left _ hk
  rw [queued_append, show queued ch M = [] from List.filterMap_eq_nil_iff.mpr hM,
    List.append_nil] at hmem
  exact hl ▸ hmem

/-- What is known of a run from `s₀` with the events `es` so far, seen from one
subscriber. -/
structure Follows (sub : Subscription) (s₀ : Sys) (es : List Event) (s : Sys) : Prop where
  log : s.log = s₀.log ++ es
  observed : s.observed sub.ch = s₀.observed sub.ch ++ (queued sub.ch es).map Prod.snd
  causal : Causal (Needs sub.ch) es
  fresh : ∀ n f, .emitted n f ∈ es → n < s.emissions
  current : ∀ t n f todo, s.pc t = .broadcasting n f todo → .emitted n f ∈ es ∧
    (sub ∈ todo → ∀ g, .enqueued n sub.ch g ∉ es) ∧ (sub ∉ todo → .enqueued n sub.ch f ∈ es)
  single : ∀ t u n f g todo rest, s.pc t = .broadcasting n f todo →
    s.pc u = .broadcasting n g rest → t = u
  covered : ∀ n f, .emitted n f ∈ es → (∃ t todo, s.pc t = .broadcasting n f todo) ∨
    .enqueued n sub.ch f ∈ es

/-- Of no concern to the subscriber with this channel. -/
def Event.Silent (ch : Nat) : Event → Prop
  | .returned _ _ => True
  | .enqueued _ c _ => c ≠ ch
  | _ => False

theorem queued_silent {ch : Nat} {new : List Event} (h : ∀ e ∈ new, e.Silent ch) :
    queued ch new = [] := by
  rw [queued, List.filterMap_eq_nil_iff]
  intro e he
  have hs := h e he
  cases e with
  | enqueued n c f => exact if_neg hs
  | _ => rfl

def Pc.broadcasts : Pc → Bool
  | .broadcasting _ _ _ => true
  | _ => false

theorem Pc.ne_broadcasting {p : Pc} (h : p.broadcasts = false) (n : Nat) (f : Frame)
    (todo : List Subscription) : p ≠ .broadcasting n f todo := by
  rintro rfl
  cases h

namespace Follows

variable {sub : Subscription} {s₀ s s' : Sys} {es : List Event}

theorem start (h : ∀ t, (s₀.pc t).broadcasts = false) : Follows sub s₀ [] s₀ where
  log := (List.append_nil s₀.log).symm
  observed := (List.append_nil _).symm
  causal := .nil
  fresh := by simp
  current := fun t n f todo hpc => absurd hpc (Pc.ne_broadcasting (h t) n f todo)
  single := fun t u n f g todo rest hpc => absurd hpc (Pc.ne_broadcasting (h t) n f todo)
  covered := by simp

theorem emitted_of_enqueued (h : Follows sub s₀ es s) {n : Nat} {f : Frame}
    (hq : .enqueued n sub.ch f ∈ es) : .emitted n f ∈ es := by
  obtain ⟨l, r, rfl⟩ := List.append_of_mem hq
  exact List.mem_append_left _ (h.causal _ _ _ rfl rfl).1

/-- A step that neither begins nor ends a broadcast and passes the subscriber by. -/
theorem quiet (h : Follows sub s₀ es s) {new : List Event} (hlog : s'.log = s.log ++ new)
    (hnew : ∀ e ∈ new, e.Silent sub.ch)
    (hobs : s'.observed sub.ch = s.observed sub.ch) (hem : s'.emissions = s.emissions)
    (hpc : ∀ t n f rest, s'.pc t = .broadcasting n f rest → ∃ todo,
      s.pc t = .broadcasting n f todo ∧ (sub ∈ rest ↔ sub ∈ todo))
    (hpc' : ∀ t n f todo, s.pc t = .broadcasting n f todo → ∃ rest,
      s'.pc t = .broadcasting n f rest) :
    Follows sub s₀ (es ++ new) s' := by
  have hmem : ∀ e, ¬ e.Silent sub.ch → (e ∈ es ++ new ↔ e ∈ es) := by
    intro e he
    rw [List.mem_append, or_iff_left_iff_imp]
    exact fun hin => absurd (hnew e hin) he
  have hemitted : ∀ n f, Event.emitted n f ∈ es ++ new ↔ .emitted n f ∈ es :=
    fun n f => hmem _ (by simp [Event.Silent])
  have henqueued : ∀ n f, Event.enqueued n sub.ch f ∈ es ++ new ↔ .enqueued n sub.ch f ∈ es :=
    fun n f => hmem _ (by simp [Event.Silent])
  have hqueued := queued_silent hnew
  refine ⟨by rw [hlog, h.log, List.append_assoc], ?_, ?_, ?_, ?_, ?_, ?_⟩
  · rw [hobs, h.observed, queued_append, hqueued, List.append_nil]
  · refine h.causal.append_free fun e he past => ?_
    have hs := hnew e he
    cases e with
    | enqueued n c f => exact fun hc => absurd hc hs
    | returned t out => trivial
    | _ => exact hs.elim
  · simpa only [hemitted, hem] using h.fresh
  · intro t n f rest ht
    obtain ⟨todo, htodo, hiff⟩ := hpc t n f rest ht
    simpa only [hemitted, henqueued, hiff] using h.current t n f todo htodo
  · intro t u n f g rest rest' ht hu
    obtain ⟨todo, htodo, -⟩ := hpc t n f rest ht
    obtain ⟨todo', htodo', -⟩ := hpc u n g rest' hu
    exact h.single t u n f g todo todo' htodo htodo'
  · intro n f hf
    rw [henqueued]
    refine (h.covered n f ((hemitted n f).mp hf)).imp_left ?_
    rintro ⟨t, todo, ht⟩
    exact ⟨t, hpc' t n f todo ht⟩

theorem quiet_thread (h : Follows sub s₀ es s) {t : Nat} {p : Pc} {new : List Event}
    (hlog : s'.log = s.log ++ new) (hnew : ∀ e ∈ new, e.Silent sub.ch)
    (hobs : s'.observed sub.ch = s.observed sub.ch) (hem : s'.emissions = s.emissions)
    (hpc : s'.pc = Function.update s.pc t p) (ht : (s.pc t).broadcasts = false)
    (hp : p.broadcasts = false) : Follows sub s₀ (es ++ new) s' := by
  have hsame : ∀ u n f todo, s'.pc u = .broadcasting n f todo ↔ s.pc u = .broadcasting n f todo := by
    intro u n f todo
    rw [hpc]
    by_cases hu : u = t
    · subst hu
      rw [Function.update_self]
      exact iff_of_false (Pc.ne_broadcasting hp n f todo) (Pc.ne_broadcasting ht n f todo)
    · rw [Function.update_of_ne hu]
  exact h.quiet hlog hnew hobs hem (fun u n f rest hu => ⟨rest, (hsame u n f rest).mp hu, Iff.rfl⟩)
    fun u n f todo hu => ⟨todo, (hsame u n f todo).mpr hu⟩

theorem moved (h : Follows sub s₀ es s) {t : Nat} {p q : Pc} {readers : Finset Nat}
    {writer : Option Nat} (hpc : s.pc t = p) (hp : p.broadcasts = false)
    (hq : q.broadcasts = false) :
    Follows sub s₀ (es ++ []) ({ s with readers, writer }.goto t q) :=
  h.quiet_thread (List.append_nil s.log).symm (by simp) rfl rfl rfl (hpc ▸ hp) hq

theorem returned_thread (h : Follows sub s₀ es s) {t : Nat} {p : Pc} {out : Outcome}
    (hlog : s'.log = s.log ++ [.returned t out])
    (hobs : s'.observed sub.ch = s.observed sub.ch) (hem : s'.emissions = s.emissions)
    (hpc' : s'.pc = Function.update s.pc t .idle) (hpc : s.pc t = p) (hp : p.broadcasts = false) :
    Follows sub s₀ (es ++ [.returned t out]) s' :=
  h.quiet_thread hlog (by simp [Event.Silent]) hobs hem hpc' (hpc ▸ hp) rfl

theorem still (h : Follows sub s₀ es s) {new : List Event} (hlog : s'.log = s.log ++ new)
    (hnew : ∀ e ∈ new, e.Silent sub.ch)
    (hobs : s'.observed sub.ch = s.observed sub.ch) (hem : s'.emissions = s.emissions)
    (hpc : s'.pc = s.pc) : Follows sub s₀ (es ++ new) s' := by
  refine h.quiet hlog hnew hobs hem ?_ ?_
  · exact fun t n f rest ht => ⟨rest, hpc ▸ ht, Iff.rfl⟩
  · exact fun t n f todo ht => ⟨todo, hpc ▸ ht⟩

theorem unsaid (h : Follows sub s₀ es s) (hlog : s'.log = s.log)
    (hobs : s'.observed sub.ch = s.observed sub.ch) (hem : s'.emissions = s.emissions)
    (hpc : s'.pc = s.pc) : Follows sub s₀ (es ++ []) s' :=
  h.still (by rw [hlog, List.append_nil]) (by simp) hobs hem hpc

theorem pass (h : Follows sub s₀ es s) {t n : Nat} {f : Frame} {x : Subscription}
    {todo : List Subscription} {new : List Event} (hlog : s'.log = s.log ++ new)
    (hnew : ∀ e ∈ new, e.Silent sub.ch)
    (hobs : s'.observed sub.ch = s.observed sub.ch) (hem : s'.emissions = s.emissions)
    (ht : s.pc t = .broadcasting n f (x :: todo))
    (hpc : s'.pc = Function.update s.pc t (.broadcasting n f todo)) (hx : x ≠ sub) :
    Follows sub s₀ (es ++ new) s' := by
  refine h.quiet hlog hnew hobs hem ?_ ?_
  · intro u m g rest hu
    rw [hpc] at hu
    by_cases hut : u = t
    · subst hut
      rw [Function.update_self] at hu
      obtain ⟨rfl, rfl, rfl⟩ := Pc.broadcasting.inj hu
      exact ⟨x :: todo, ht, by rw [List.mem_cons, or_iff_right (Ne.symm hx)]⟩
    · rw [Function.update_of_ne hut] at hu
      exact ⟨rest, hu, Iff.rfl⟩
  · intro u m g rest hu
    rw [hpc]
    by_cases hut : u = t
    · subst hut
      rw [ht] at hu
      obtain ⟨rfl, rfl, -⟩ := Pc.broadcasting.inj hu
      exact ⟨todo, Function.update_self _ _ _⟩
    · exact ⟨rest, by rw [Function.update_of_ne hut, hu]⟩

theorem deliver (h : Follows sub s₀ es s) {t n : Nat} {f : Frame} {todo : List Subscription}
    (hlog : s'.log = s.log ++ [.enqueued n sub.ch f])
    (hobs : s'.observed sub.ch = s.observed sub.ch ++ [f]) (hem : s'.emissions = s.emissions)
    (ht : s.pc t = .broadcasting n f (sub :: todo))
    (hpc : s'.pc = Function.update s.pc t (.broadcasting n f todo)) (hnot : sub ∉ todo) :
    Follows sub s₀ (es ++ [.enqueued n sub.ch f]) s' := by
  obtain ⟨hemitted, hin, -⟩ := h.current t n f _ ht
  have hold : ∀ m g, Event.emitted m g ∈ es ++ [.enqueued n sub.ch f] ↔ .emitted m g ∈ es := by
    simp
  refine ⟨by rw [hlog, h.log, List.append_assoc], ?_, ?_, ?_, ?_, ?_, ?_⟩
  · rw [hobs, h.observed, queued_append, queued_singleton]
    simp [Event.queuedOn]
  · exact h.causal.concat fun _ => ⟨hemitted, hin List.mem_cons_self⟩
  · simpa only [hold, hem] using h.fresh
  · intro u m g rest hu
    rw [hpc] at hu
    rw [hold]
    by_cases hut : u = t
    · subst hut
      rw [Function.update_self] at hu
      obtain ⟨rfl, rfl, rfl⟩ := Pc.broadcasting.inj hu
      exact ⟨hemitted, fun hmem => absurd hmem hnot, fun _ => by simp⟩
    · rw [Function.update_of_ne hut] at hu
      obtain ⟨hem', hin', hout'⟩ := h.current u m g rest hu
      have hne : m ≠ n := by
        rintro rfl
        exact hut (h.single u t m g f rest _ hu ht)
      refine ⟨hem', fun hmem k hk => ?_, fun hmem => List.mem_append_left _ (hout' hmem)⟩
      rcases List.mem_append.mp hk with hk | hk
      · exact hin' hmem k hk
      · exact hne (Event.enqueued.inj (List.mem_singleton.mp hk)).1
  · intro u v m g k rest rest' hu hv
    have back : ∀ w k rest, s'.pc w = .broadcasting m k rest →
        ∃ todo, s.pc w = .broadcasting m k todo := by
      intro w k rest hw
      rw [hpc] at hw
      by_cases hwt : w = t
      · subst hwt
        rw [Function.update_self] at hw
        obtain ⟨rfl, rfl, -⟩ := Pc.broadcasting.inj hw
        exact ⟨_, ht⟩
      · rw [Function.update_of_ne hwt] at hw
        exact ⟨rest, hw⟩
    obtain ⟨todo₁, hu'⟩ := back u g rest hu
    obtain ⟨todo₂, hv'⟩ := back v k rest' hv
    exact h.single u v m g k todo₁ todo₂ hu' hv'
  · intro m g hg
    rw [hold] at hg
    obtain ⟨u, rest, hu⟩ | hq := h.covered m g hg
    · by_cases hut : u = t
      · subst hut
        rw [ht] at hu
        obtain ⟨rfl, rfl, -⟩ := Pc.broadcasting.inj hu
        exact .inr (by simp)
      · exact .inl ⟨u, rest, by rw [hpc, Function.update_of_ne hut, hu]⟩
    · exact .inr (List.mem_append_left _ hq)

theorem ended (h : Follows sub s₀ es s) {t n : Nat} {f : Frame}
    (hlog : s'.log = s.log ++ [.ended n])
    (hobs : s'.observed sub.ch = s.observed sub.ch) (hem : s'.emissions = s.emissions)
    (ht : s.pc t = .broadcasting n f []) (hpc : s'.pc = Function.update s.pc t .idle) :
    Follows sub s₀ (es ++ [.ended n]) s' := by
  obtain ⟨-, -, hout⟩ := h.current t n f [] ht
  have hserved : Event.enqueued n sub.ch f ∈ es := hout List.not_mem_nil
  have hemitted : ∀ m g, Event.emitted m g ∈ es ++ [.ended n] ↔ .emitted m g ∈ es := by simp
  have henqueued : ∀ m g, Event.enqueued m sub.ch g ∈ es ++ [.ended n] ↔
      .enqueued m sub.ch g ∈ es := by simp
  have back : ∀ u m g rest, s'.pc u = .broadcasting m g rest → s.pc u = .broadcasting m g rest := by
    intro u m g rest hu
    rw [hpc] at hu
    by_cases hut : u = t
    · subst hut
      rw [Function.update_self] at hu
      cases hu
    · rwa [Function.update_of_ne hut] at hu
  refine ⟨by rw [hlog, h.log, List.append_assoc], ?_, ?_, ?_, ?_, ?_, ?_⟩
  · rw [hobs, h.observed, queued_append, queued_singleton]
    simp [Event.queuedOn]
  · exact h.causal.concat ⟨f, hserved⟩
  · simpa only [hemitted, hem] using h.fresh
  · intro u m g rest hu
    simpa only [hemitted, henqueued] using h.current u m g rest (back u m g rest hu)
  · intro u v m g k rest rest' hu hv
    exact h.single u v m g k rest rest' (back u m g rest hu) (back v m k rest' hv)
  · intro m g hg
    rw [henqueued]
    obtain ⟨u, rest, hu⟩ | hq := h.covered m g ((hemitted m g).mp hg)
    · by_cases hut : u = t
      · subst hut
        rw [ht] at hu
        obtain ⟨rfl, rfl, -⟩ := Pc.broadcasting.inj hu
        exact .inr hserved
      · exact .inl ⟨u, rest, by rw [hpc, Function.update_of_ne hut, hu]⟩
    · exact .inr hq

theorem emit (h : Follows sub s₀ es s) {t : Nat} {b : Bus} {f : Frame}
    (hsub : sub ∈ b.subs) (hchans : b.chans = s.bus.chans) (ht : (s.pc t).broadcasts = false) :
    Follows sub s₀ (es ++ [.emitted s.emissions f]) (s.emit t b f) := by
  have hpc : (s.emit t b f).pc = Function.update s.pc t (.broadcasting s.emissions f b.subs) := rfl
  have hnot : ∀ g, .enqueued s.emissions sub.ch g ∉ es := fun g hg =>
    Nat.lt_irrefl _ (h.fresh _ _ (h.emitted_of_enqueued hg))
  refine ⟨?_, ?_, ?_, ?_, ?_, ?_, ?_⟩
  · change s.log ++ _ = _
    rw [h.log, List.append_assoc]
  · rw [queued_append, queued_singleton]
    simp only [Event.queuedOn, Option.toList_none, List.append_nil]
    rw [← h.observed]
    simp only [Sys.observed, Sys.emit_bus, hchans]
    rfl
  · exact h.causal.concat fun g hg => Nat.lt_irrefl _ (h.fresh _ _ hg)
  · intro n g hg
    rcases List.mem_append.mp hg with hold | hnew
    · exact Nat.lt_succ_of_lt (h.fresh n g hold)
    · obtain ⟨rfl, -⟩ := Event.emitted.inj (List.mem_singleton.mp hnew)
      exact Nat.lt_succ_self _
  · intro u n g todo hu
    rw [hpc] at hu
    by_cases hut : u = t
    · subst hut
      rw [Function.update_self] at hu
      obtain ⟨rfl, rfl, rfl⟩ := Pc.broadcasting.inj hu
      refine ⟨by simp, fun _ k hk => ?_, fun hout => absurd hsub hout⟩
      rcases List.mem_append.mp hk with hold | hnew
      · exact hnot k hold
      · cases List.mem_singleton.mp hnew
    · rw [Function.update_of_ne hut] at hu
      obtain ⟨hem, hin, hout⟩ := h.current u n g todo hu
      refine ⟨List.mem_append_left _ hem, fun hmem k hk => ?_, fun hmem => ?_⟩
      · rcases List.mem_append.mp hk with hold | hnew
        · exact hin hmem k hold
        · cases List.mem_singleton.mp hnew
      · exact List.mem_append_left _ (hout hmem)
  · intro u v n g k todo rest hu hv
    have old : ∀ w g todo, s.pc w = .broadcasting n g todo → n < s.emissions :=
      fun w g todo hw => h.fresh n g (h.current w n g todo hw).1
    rw [hpc] at hu hv
    by_cases hut : u = t <;> by_cases hvt : v = t
    · exact hut.trans hvt.symm
    · subst hut
      rw [Function.update_self] at hu
      rw [Function.update_of_ne hvt] at hv
      obtain ⟨rfl, -, -⟩ := Pc.broadcasting.inj hu
      exact absurd (old v k rest hv) (Nat.lt_irrefl _)
    · subst hvt
      rw [Function.update_self] at hv
      rw [Function.update_of_ne hut] at hu
      obtain ⟨rfl, -, -⟩ := Pc.broadcasting.inj hv
      exact absurd (old u g todo hu) (Nat.lt_irrefl _)
    · rw [Function.update_of_ne hut] at hu
      rw [Function.update_of_ne hvt] at hv
      exact h.single u v n g k todo rest hu hv
  · intro n g hg
    rcases List.mem_append.mp hg with hold | hnew
    · obtain ⟨u, todo, hu⟩ | hq := h.covered n g hold
      · have hut : u ≠ t := by
          rintro rfl
          exact Pc.ne_broadcasting ht n g todo hu
        exact .inl ⟨u, todo, by rw [hpc, Function.update_of_ne hut, hu]⟩
      · exact .inr (List.mem_append_left _ hq)
    · obtain ⟨rfl, rfl⟩ := Event.emitted.inj (List.mem_singleton.mp hnew)
      exact .inl ⟨t, b.subs, by rw [hpc, Function.update_self]⟩

end Follows

theorem Sys.observed_take {s : Sys} {ch : Nat} {c : Chan Frame} {f : Option Frame}
    (h : (s.bus.chans ch).buf = f.toList ++ c.buf) (k : Nat) :
    (s.take ch c f).observed k = s.observed k := by
  unfold Sys.observed Sys.take Bus.setChan
  by_cases hk : k = ch
  · subst hk
    simp only [Function.update_self]
    rw [h, List.append_assoc]
  · simp only [Function.update_of_ne hk]

/-- A broadcast comes to each subscription once. -/
theorem Bus.WellFormed.not_mem_rest {b : Bus} (h : b.WellFormed) {x : Subscription}
    {todo : List Subscription} (hx : x :: todo <:+ b.subs) : x ∉ todo := by
  have hnd : ((x :: todo).map Subscription.ch).Nodup := h.ownChannels.sublist (hx.sublist.map _)
  exact fun hin => (List.nodup_cons.mp hnd).1 (List.mem_map_of_mem hin)

theorem Event.silent_of_ne {ch k n : Nat} {f : Frame} {p : Prop} [Decidable p] (hch : k ≠ ch) :
    ∀ e ∈ if p then [Event.enqueued n k f] else [], e.Silent ch := by
  intro e he
  split_ifs at he
  · obtain rfl := List.mem_singleton.mp he
    exact hch
  · exact absurd he List.not_mem_nil

theorem Follows.delivered_own {sub : Subscription} {s₀ s : Sys} {es : List Event}
    (h : Follows sub s₀ es s) (hfilters : sub.filters = []) (hlisten : Listens sub s) {t n : Nat}
    {f : Frame} {todo : List Subscription} {b : Bus}
    (hpc : s.pc t = .broadcasting n f (sub :: todo)) (hb : Bus.deliver f s.bus sub = some b)
    (hnot : sub ∉ todo) :
    ∃ es', Follows sub s₀ es' (((s.setBus b).goto t (.broadcasting n f todo)).record
      (if s.bus.takes f sub then [.enqueued n sub.ch f] else [])) := by
  have hmatch : matchesAny sub.filters f = true := by simp [matchesAny, hfilters]
  have hbuf : (b.chans sub.ch).buf = (s.bus.chans sub.ch).buf ++ [f] := by
    obtain ⟨hno, -⟩ | ⟨c, m, -, hoffer, rfl⟩ := Bus.deliver_cases hb
    · rw [hmatch] at hno
      cases hno
    · rw [Chan.offer_of_room hlisten.isOpen hlisten.room, Option.some.injEq] at hoffer
      simp [Bus.setChan, ← hoffer]
  have htakes : s.bus.takes f sub = true := by
    simp [Bus.takes, hmatch, hlisten.isOpen, hlisten.room]
  refine ⟨_, h.deliver ?_ ?_ rfl hpc rfl hnot⟩
  · rw [htakes]
    rfl
  · change s.received sub.ch ++ (b.chans sub.ch).buf = _
    rw [hbuf, ← List.append_assoc]
    rfl

theorem Follows.delivered_other {sub x : Subscription} {s₀ s : Sys} {es : List Event}
    (h : Follows sub s₀ es s) {t n : Nat} {f : Frame} {todo : List Subscription} {b : Bus}
    (hpc : s.pc t = .broadcasting n f (x :: todo)) (hb : Bus.deliver f s.bus x = some b)
    (hch : x.ch ≠ sub.ch) :
    ∃ es', Follows sub s₀ es' (((s.setBus b).goto t (.broadcasting n f todo)).record
      (if s.bus.takes f x then [.enqueued n x.ch f] else [])) := by
  have hne : x ≠ sub := fun he => hch (congrArg Subscription.ch he)
  refine ⟨_, h.pass rfl (Event.silent_of_ne hch) ?_ rfl hpc rfl hne⟩
  exact congrArg (fun c => s.received sub.ch ++ c.buf) (Bus.deliver_chans_of_ne hb (Ne.symm hch))

/-- Every move of the system takes a run along, as long as the subscriber listens. -/
theorem Follows.step {sub : Subscription} {s₀ s s' : Sys} {es : List Event} {a : Action}
    (h : Follows sub s₀ es s) (hfilters : sub.filters = []) (hlisten : Listens sub s)
    (hwf : s.bus.WellFormed) (hahead : ∀ t, (s.pc t).Ahead s.bus.subs)
    (hm : Sys.Moves s a s') : ∃ es', Follows sub s₀ es' s' := by
  have hch := hwf.allocated sub hlisten.subscribed
  have same : ∀ {b : Bus}, b.chans = s.bus.chans → ∀ r : Nat → List Frame, r = s.received →
      r sub.ch ++ (b.chans sub.ch).buf = s.observed sub.ch := by
    rintro b hb r rfl
    rw [hb]
    rfl
  cases hm with
  | reject hpc hr =>
      exact ⟨_, h.returned_thread rfl rfl rfl rfl hpc rfl⟩
  | call hpc hr hc => exact ⟨_, h.moved hpc rfl rfl⟩
  | callDrain hpc => exact ⟨_, h.moved hpc rfl rfl⟩
  | lock hpc hw hr => exact ⟨_, h.moved hpc rfl rfl⟩
  | lockShared hpc hc hw => exact ⟨_, h.moved hpc rfl rfl⟩
  | exclusive hpc hb =>
      refine ⟨_, h.returned_thread rfl ?_ rfl rfl hpc rfl⟩
      exact congrArg (s.received sub.ch ++ ·) (Exclusive.body_buf hb hch)
  | respondError hpc hb =>
      exact ⟨_, h.returned_thread rfl (same (Bus.respond_frame hb).2 _ rfl) rfl rfl hpc rfl⟩
  | emit hpc hb =>
      obtain ⟨htables, hchans⟩ := Bus.respond_frame hb
      exact ⟨_, h.emit (htables.subs ▸ hlisten.subscribed) hchans (by rw [hpc]; rfl)⟩
  | @deliver t n f x todo b hpc hb =>
      have hx := hahead t
      rw [hpc] at hx
      have hxmem : x ∈ s.bus.subs := hx.subset List.mem_cons_self
      by_cases hself : x = sub
      · subst hself
        exact h.delivered_own hfilters hlisten hpc hb (hwf.not_mem_rest hx)
      · refine h.delivered_other hpc hb fun he => hself ?_
        exact List.inj_on_of_nodup_map hwf.ownChannels hxmem hlisten.subscribed he
  | @ended t n f hpc =>
      have hmid : Follows sub s₀ (es ++ [.ended n])
          (((s.unlockShared t).record [.ended n]).goto t .idle) := h.ended rfl rfl rfl hpc rfl
      exact ⟨_, hmid.still rfl (by simp [Event.Silent]) rfl rfl rfl⟩
  | scan hpc => exact ⟨_, h.moved hpc rfl rfl⟩
  | scanEmpty hpc => exact ⟨_, h.moved hpc rfl rfl⟩
  | scanFound hpc => exact ⟨_, h.moved hpc rfl rfl⟩
  | scanDone hpc => exact ⟨_, h.moved hpc rfl rfl⟩
  | poll hpc => exact ⟨_, h.moved hpc rfl rfl⟩
  | timeUp hpc => exact ⟨_, h.moved hpc rfl rfl⟩
  | recv hr => exact ⟨_, h.unsaid rfl (Sys.observed_take (Chan.recv_buf hr) _) rfl rfl⟩
  | tryRecv hr => exact ⟨_, h.unsaid rfl (Sys.observed_take (Chan.tryRecv_buf hr) _) rfl rfl⟩
  | @closeChan ch =>
      refine ⟨_, h.unsaid rfl ?_ rfl rfl⟩
      refine congrArg (s.received sub.ch ++ ·) ?_
      by_cases hc : sub.ch = ch
      · subst hc
        simp [Bus.closeChan, Bus.setChan]
      · simp [Bus.closeChan, Bus.setChan, hc]

/-- The events of a run from `s₀` to `s`. -/
def since (s₀ s : Sys) : List Event := s.log.drop s₀.log.length

/-- In every step of the run the subscription, one without filters, is in place and
its channel has room. -/
def ListensThroughout (sub : Subscription) (s₀ : Sys) (as : List Action) : Prop :=
  sub.filters = [] ∧ Guarded Sys.step (fun s _ => Listens sub s) s₀ as

instance (sub : Subscription) (s₀ : Sys) (as : List Action) :
    Decidable (ListensThroughout sub s₀ as) := inferInstanceAs (Decidable (_ ∧ _))

theorem follows_run {before as : List Action} {s₀ s : Sys} {sub : Subscription}
    (h₀ : run Sys.step {} before = some s₀) (hquiet : ∀ t, (s₀.pc t).broadcasts = false)
    (hsub : ListensThroughout sub s₀ as) (h : run Sys.step s₀ as = some s) :
    Follows sub s₀ (since s₀ s) s := by
  have hinv : s.Locked ∧ s.bus.WellFormed ∧ (∀ t, (s.pc t).Ahead s.bus.subs) ∧
      ∃ es, Follows sub s₀ es s := by
    refine guarded_run (I := fun s => s.Locked ∧ s.bus.WellFormed ∧
      (∀ t, (s.pc t).Ahead s.bus.subs) ∧ ∃ es, Follows sub s₀ es s) ?_
      ⟨Sys.locked_run h₀, Sys.wellFormed_run h₀, Sys.ahead_run h₀, [], .start hquiet⟩ hsub.2 h
    rintro m a m' ⟨hlock, hwf, hahead, es, hes⟩ hlisten hstep
    have hm := Sys.moves_of_step hstep
    exact ⟨hlock.step hm, Sys.wellFormed_step hwf hm, Sys.ahead_step hlock hahead hm,
      hes.step hsub.1 hlisten hwf hahead hm⟩
  obtain ⟨-, -, -, es, hes⟩ := hinv
  have hsince : since s₀ s = es := by
    rw [since, hes.log, List.drop_left]
  rw [hsince]
  exact hes

/-- What one subscriber observes of a run: the frames put into its channel, each emitted
frame at most once, one whose broadcast had ended before one emitted later, and every
emitted frame once no broadcast is left in progress. -/
structure InCallOrder (s₀ s : Sys) (ch : Nat) : Prop where
  observed : s.observed ch = s₀.observed ch ++ (queued ch (since s₀ s)).map Prod.snd
  once : ((queued ch (since s₀ s)).map Prod.fst).Nodup
  order : ∀ i j, Precedes (since s₀ s) i j → ∀ l g r, queued ch (since s₀ s) = l ++ (j, g) :: r →
    ∃ f, (i, f) ∈ l
  emitted : ∀ n f, (n, f) ∈ queued ch (since s₀ s) → .emitted n f ∈ since s₀ s
  complete : (∀ t, (s.pc t).broadcasts = false) → ∀ n f, .emitted n f ∈ since s₀ s →
    (n, f) ∈ queued ch (since s₀ s)

theorem Follows.inCallOrder {s₀ s : Sys} {sub : Subscription} (h : Follows sub s₀ (since s₀ s) s) :
    InCallOrder s₀ s sub.ch where
  observed := h.observed
  once := queued_nodup h.causal
  order := fun _ _ hij _ _ _ hq => Causal.queued_before h.causal hij hq
  emitted := fun _ _ hq => h.emitted_of_enqueued (mem_queued.mp hq)
  complete := fun hquiet n f hf => by
    obtain ⟨t, todo, ht⟩ | hq := h.covered n f hf
    · exact absurd ht (Pc.ne_broadcasting (hquiet t) n f todo)
    · exact mem_queued.mpr hq

/-- No two broadcasts overlap. -/
def OneAtATime (es : List Event) : Prop :=
  ∀ i f j g, .emitted i f ∈ es → .emitted j g ∈ es → i ≠ j → Precedes es i j ∨ Precedes es j i

section
variable {s₀ s : Sys} {ch : Nat} (h : InCallOrder s₀ s ch)
include h

theorem InCallOrder.not_before {x y : Nat × Frame} {l r : List (Nat × Frame)}
    (hq : queued ch (since s₀ s) = l ++ r) (hx : x ∈ l) (hy : y ∈ r) :
    ¬ Precedes (since s₀ s) y.1 x.1 := by
  intro hyx
  obtain ⟨u, v, rfl⟩ := List.append_of_mem hx
  rw [List.append_assoc, List.cons_append] at hq
  obtain ⟨f, hf⟩ := h.order y.1 x.1 hyx u x.2 (v ++ r) hq
  have hnd := h.once
  rw [hq, List.map_append, List.nodup_append] at hnd
  exact hnd.2.2 y.1 (List.mem_map.mpr ⟨(y.1, f), hf, rfl⟩) y.1
    (List.mem_map_of_mem (List.mem_cons_of_mem x (List.mem_append_right v hy))) rfl

theorem InCallOrder.pairwise (hone : OneAtATime (since s₀ s)) :
    (queued ch (since s₀ s)).Pairwise fun x y => Precedes (since s₀ s) x.1 y.1 := by
  rw [List.pairwise_iff_forall_sublist]
  intro x y hxy
  obtain ⟨l, r, hq, hx, hy⟩ := List.cons_sublist_iff.mp hxy
  rw [List.singleton_sublist] at hy
  have hmem : ∀ z ∈ l ++ r, Event.emitted z.1 z.2 ∈ since s₀ s := fun z hz =>
    h.emitted z.1 z.2 (hq ▸ hz)
  have hne : x.1 ≠ y.1 := by
    have hnd := h.once
    rw [hq, List.map_append, List.nodup_append] at hnd
    exact hnd.2.2 x.1 (List.mem_map_of_mem hx) y.1 (List.mem_map_of_mem hy)
  have hcases := hone x.1 x.2 y.1 y.2 (hmem x (List.mem_append_left r hx))
    (hmem y (List.mem_append_right l hy)) hne
  exact hcases.resolve_right (h.not_before hq hx hy)

end

theorem InCallOrder.queued_eq {s₀ s : Sys} {ch ch' : Nat} (h : InCallOrder s₀ s ch)
    (h' : InCallOrder s₀ s ch') (hquiet : ∀ t, (s.pc t).broadcasts = false)
    (hone : OneAtATime (since s₀ s)) :
    queued ch (since s₀ s) = queued ch' (since s₀ s) := by
  have hmem : ∀ x, x ∈ queued ch (since s₀ s) ↔ x ∈ queued ch' (since s₀ s) := fun x =>
    ⟨fun hx => h'.complete hquiet x.1 x.2 (h.emitted x.1 x.2 hx),
      fun hx => h.complete hquiet x.1 x.2 (h'.emitted x.1 x.2 hx)⟩
  have hperm : List.Perm (queued ch (since s₀ s)) (queued ch' (since s₀ s)) :=
    (List.perm_ext_iff_of_nodup h.once.of_map h'.once.of_map).mpr hmem
  refine hperm.eq_of_pairwise ?_ (h.pairwise hone) (h'.pairwise hone)
  intro x y hx hy hxy hyx
  rw [← hmem] at hy
  by_contra hne
  obtain ⟨l, r, hq⟩ := List.append_of_mem hx
  have hy' : y ∈ l ∨ y ∈ r := by
    rw [hq, List.mem_append, List.mem_cons] at hy
    exact hy.imp_right fun hor => hor.resolve_left (Ne.symm hne)
  rcases hy' with hl | hr
  · exact h.not_before hq hl List.mem_cons_self hxy
  · rw [← List.singleton_append, ← List.append_assoc] at hq
    exact h.not_before hq (by simp) hr hyx

/-- Subscribers without filters whose channels never fill up observe in the same order
the frames of calls that do not overlap; of overlapping calls the orders may differ. -/
theorem observers_agree {before as : List Action} {s₀ s : Sys} {A B : Subscription}
    (h₀ : run Sys.step {} before = some s₀) (hquiet : ∀ t, (s₀.pc t).broadcasts = false)
    (hA : ListensThroughout A s₀ as) (hB : ListensThroughout B s₀ as)
    (h : run Sys.step s₀ as = some s) :
    InCallOrder s₀ s A.ch ∧ InCallOrder s₀ s B.ch ∧
      ((∀ t, (s.pc t).broadcasts = false) → OneAtATime (since s₀ s) →
        queued A.ch (since s₀ s) = queued B.ch (since s₀ s)) := by
  have hA' := (follows_run h₀ hquiet hA h).inCallOrder
  have hB' := (follows_run h₀ hquiet hB h).inCallOrder
  exact ⟨hA', hB', hA'.queued_eq hB'⟩

def crossedBefore : List Action :=
  [.call 0 (.exclusive (.subscribe [] [])), .lock 0, .step 0,
    .call 0 (.exclusive (.subscribe [] [])), .lock 0, .step 0,
    .call 0 (.exclusive (.publish 1 [0xA1])), .lock 0, .step 0,
    .call 0 (.exclusive (.publish 2 [0xA2])), .lock 0, .step 0]

/-- Two broadcasts, of which the second overtakes the first between the subscribers. -/
def crossed : List Action :=
  [.call 1 (.sendHeader 1), .lock 1, .step 1, .call 2 (.sendHeader 2), .lock 2, .step 2,
    .step 1, .step 2, .step 2, .step 1, .step 1, .step 2]

theorem crossed_run : ∃ s₀ s, run Sys.step {} crossedBefore = some s₀ ∧
    run Sys.step s₀ crossed = some s ∧
    (s₀.readers = ∅ ∧ s.readers = ∅ ∧ ListensThroughout ⟨[], 0, .dropNewest⟩ s₀ crossed ∧
      ListensThroughout ⟨[], 1, .dropNewest⟩ s₀ crossed ∧ s₀.observed 0 = s₀.observed 1 ∧
      s.observed 0 ≠ s.observed 1) := by
  have h : (run Sys.step {} crossedBefore).any fun s₀ => (run Sys.step s₀ crossed).any fun s =>
      decide (s₀.readers = ∅ ∧ s.readers = ∅ ∧ ListensThroughout ⟨[], 0, .dropNewest⟩ s₀ crossed ∧
        ListensThroughout ⟨[], 1, .dropNewest⟩ s₀ crossed ∧ s₀.observed 0 = s₀.observed 1 ∧
        s.observed 0 ≠ s.observed 1) := by decide +kernel
  obtain ⟨s₀, h₀, h⟩ := (Option.any_eq_true _ _).mp h
  obtain ⟨s, hs, h⟩ := (Option.any_eq_true _ _).mp h
  exact ⟨s₀, s, h₀, hs, of_decide_eq_true h⟩

theorem Sys.Locked.quiet {s : Sys} (hs : s.Locked) (h : s.readers = ∅) (t : Nat) :
    (s.pc t).broadcasts = false := by
  have hshares : ¬ (s.pc t).shares = true := by
    rw [← hs.readers t, h]
    exact Finset.notMem_empty t
  cases hp : s.pc t with
  | broadcasting n f todo => exact absurd (by rw [hp]; rfl) hshares
  | _ => rfl

theorem not_observers_agree : ¬ ∀ (before as : List Action) (s₀ s : Sys) (A B : Subscription),
    run Sys.step {} before = some s₀ → run Sys.step s₀ as = some s →
    (∀ t, (s₀.pc t).broadcasts = false) → (∀ t, (s.pc t).broadcasts = false) →
    ListensThroughout A s₀ as → ListensThroughout B s₀ as →
    s₀.observed A.ch = s₀.observed B.ch → s.observed A.ch = s.observed B.ch := by
  intro h
  obtain ⟨s₀, s, h₀, hs, hr₀, hr, hA, hB, hsame, hdiff⟩ := crossed_run
  have hlock := Sys.locked_run (run_append.mpr ⟨s₀, h₀, hs⟩)
  exact hdiff (h _ _ s₀ s _ _ h₀ hs ((Sys.locked_run h₀).quiet hr₀) (hlock.quiet hr) hA hB hsame)

/-- In that run too every subscriber gets each frame once. -/
theorem observers_agree_crossed : ∃ s₀ s, run Sys.step {} crossedBefore = some s₀ ∧
    run Sys.step s₀ crossed = some s ∧ InCallOrder s₀ s 0 ∧ InCallOrder s₀ s 1 := by
  obtain ⟨s₀, s, h₀, hs, hr₀, -, hA, hB, -, -⟩ := crossed_run
  have h := observers_agree h₀ ((Sys.locked_run h₀).quiet hr₀) hA hB hs
  exact ⟨s₀, s, h₀, hs, h.1, h.2.1⟩

end CppLin.Virt
