import Mathlib.Algebra.Order.BigOperators.Group.List
import Mathlib.Algebra.Order.Monoid.NatCast
import Mathlib.Algebra.Order.Group.Nat
import Mathlib.Data.List.Nodup
import Rtorrent.DownloadMulticall

/-! # No command is dispatched on an erased download

The use count of an erased download is the number of calls that hold a copy. The outermost of
them sees a count of one when it goes on, a call further in does not. -/
namespace MulticallDispatch

open RpcTextParser TransitionSystems ViewModel DownloadMulticall

variable {α : Type*} {v : View α}

theorem setVisible_arranged [DecidableEq α] (h : v.Valid) (less : α → α → Bool) (d : α) :
    Arranged v (v.setVisible less d).1 := by
  refine ⟨?_, View.setVisible_perm h less d⟩
  rw [View.setVisible]
  split <;> rfl

theorem setNotVisible_arranged [DecidableEq α] (v : View α) (d : α) :
    Arranged v (v.setNotVisible d).1 := by
  refine ⟨?_, View.setNotVisible_perm v d⟩
  rw [View.setNotVisible]
  split <;> rfl

theorem filter_arranged (passes : α → Bool) (v : View α) : Arranged v (v.filter passes).1 := by
  refine ⟨?_, View.filter_perm passes v⟩
  rw [View.filter]
  split <;> rfl

theorem sort_arranged [DecidableEq α] (v : View α) (less : α → α → Bool) :
    Arranged v (v.sort less) :=
  ⟨rfl, View.sort_perm v less⟩

variable {d : α}

theorem filterDownload_arranged [DecidableEq α] {w : View α} {es : List (EventKind × α)}
    {passes : α → Bool} {less : α → α → Bool} (h : v.Valid)
    (hw : v.filterDownload passes less d = .ok (w, es)) : Arranged v w := by
  refine ⟨?_, (View.filterDownload_spec h hw).2⟩
  simp only [View.filterDownload] at hw
  split at hw
  · cases hw
  split at hw
  · cases hw
    rfl
  split at hw <;> cases hw <;> rfl

def Pending (d : α) : Frame α → Prop
  | .multicall m => (∃ c cs, m.row = some (d, c :: cs)) ∨ (d ∈ m.todo ∧ m.commands ≠ [])
  | .holding _ => False

instance [DecidableEq α] (d : α) : ∀ row : Option (α × List Text),
    Decidable (∃ c cs, row = some (d, c :: cs))
  | none | some (_, []) => isFalse (by simp)
  | some (e, c :: cs) => decidable_of_iff (e = d) (by simp)

instance [DecidableEq α] (d : α) : ∀ f : Frame α, Decidable (Pending d f)
  | .multicall _ => instDecidableOr
  | .holding _ => isFalse id

/-- Only the outermost of the calls that hold the download has commands left for it. -/
def Quiet (s : State α) (d : α) : Prop :=
  s.frames.Pairwise fun f g => Pending d f → d ∉ g.refs

instance [DecidableEq α] (s : State α) (d : α) : Decidable (Quiet s d) :=
  inferInstanceAs (Decidable (List.Pairwise _ _))

def ErasesQuietly (s : State α) : Event α → Prop
  | .erase d => Quiet s d
  | _ => True

instance [DecidableEq α] (s : State α) : ∀ e : Event α, Decidable (ErasesQuietly s e)
  | .erase d => inferInstanceAs (Decidable (Quiet s d))
  | .multicall _ _ _ | .loop | .returns _ | .throws | .hold _ _ | .release | .insert _
  | .insertView _ | .arrange _ _ | .eraseFromView _ _ => isTrue trivial

structure Frame.Wellformed (f : Frame α) : Prop where
  nodup : f.refs.Nodup
  todo : ∀ m, f = .multicall m → ∀ d ∈ m.todo, d ∈ m.dlist
  row : ∀ m d cs, f = .multicall m → m.row = some (d, cs) → d ∈ m.dlist

structure Invariant (s : State α) : Prop where
  downloads : s.downloads.Nodup
  views : ∀ v ∈ s.views, v.entries.Nodup ∧ ∀ d ∈ v.entries, d ∈ s.downloads
  erased : ∀ d ∈ s.erased, d ∉ s.downloads
  frames : ∀ f ∈ s.frames, Frame.Wellformed f
  refs : ∀ f ∈ s.frames, ∀ d ∈ f.refs, d ∈ s.downloads ∨ d ∈ s.erased
  waits : ∀ f ∈ s.frames.tail, f.waits = true
  quiet : ∀ d ∈ s.erased, Quiet s d
  late : s.late = []

theorem initial_invariant : Invariant (initial : State α) := by
  constructor <;> simp [initial]

variable {f : Frame α}

theorem pending_mem (h : Frame.Wellformed f) (hp : Pending d f) : d ∈ f.refs := by
  cases f with
  | multicall m =>
    rcases hp with ⟨c, cs, hr⟩ | ⟨ht, -⟩
    · exact h.row m d _ rfl hr
    · exact h.todo m rfl d ht
  | holding entries => exact hp.elim

variable {s : State α} {g : Frame α} {below : List (Frame α)}

theorem Invariant.replace (h : Invariant s) (hf : s.frames = f :: below) (hg : Frame.Wellformed g)
    (hr : g.refs = f.refs) (hp : ∀ d, Pending d g → Pending d f) :
    Invariant { s with frames := g :: below } := by
  have hm : f ∈ s.frames := by simp [hf]
  constructor
  · exact h.downloads
  · exact h.views
  · exact h.erased
  · intro k hk
    rcases List.mem_cons.mp hk with rfl | hk
    · exact hg
    · exact h.frames k (by simp [hf, hk])
  · intro k hk
    rcases List.mem_cons.mp hk with rfl | hk
    · rw [hr]
      exact h.refs f hm
    · exact h.refs k (by simp [hf, hk])
  · have hw := h.waits
    rw [hf] at hw
    exact hw
  · intro d hd
    have hq := h.quiet d hd
    rw [Quiet, hf, List.pairwise_cons] at hq
    exact List.pairwise_cons.mpr ⟨fun k hk hpk => hq.1 k hk (hp d hpk), hq.2⟩
  · exact h.late

theorem active_waits (ha : Active s) (h : Invariant s) : ∀ f ∈ s.frames, f.waits = true := by
  have hw := h.waits
  intro f hf
  cases hs : s.frames with
  | nil => simp [hs] at hf
  | cons g gs =>
    rw [hs] at hw hf
    rcases List.mem_cons.mp hf with rfl | hf
    · simpa [Active, hs] using ha
    · exact hw f hf

theorem Invariant.push (h : Invariant s) (ha : Active s)
    (hf : Frame.Wellformed f) (hr : ∀ d ∈ f.refs, d ∈ s.downloads) :
    Invariant { s with frames := f :: s.frames } := by
  constructor
  · exact h.downloads
  · exact h.views
  · exact h.erased
  · intro g hg
    rcases List.mem_cons.mp hg with rfl | hg
    · exact hf
    · exact h.frames g hg
  · intro g hg
    rcases List.mem_cons.mp hg with rfl | hg
    · exact fun d hd => .inl (hr d hd)
    · exact h.refs g hg
  · exact active_waits ha h
  · intro d hd
    refine List.pairwise_cons.mpr ⟨?_, h.quiet d hd⟩
    intro g _ hp
    exact absurd (hr d (pending_mem hf hp)) (h.erased d hd)
  · exact h.late

theorem Invariant.pop (h : Invariant s) : Invariant { s with frames := s.frames.tail } := by
  constructor
  · exact h.downloads
  · exact h.views
  · exact h.erased
  · exact fun f hf => h.frames f (List.mem_of_mem_tail hf)
  · exact fun f hf => h.refs f (List.mem_of_mem_tail hf)
  · exact fun f hf => h.waits f (List.mem_of_mem_tail hf)
  · exact fun d hd => (h.quiet d hd).sublist (List.tail_sublist _)
  · exact h.late

theorem findView_mem {name : String} (h : findView s name = some v) :
    v ∈ s.views := List.mem_of_find?_eq_some h

theorem visible_filter_sublist (v : View α) (passes : α → Bool) :
    (v.visible.filter passes).Sublist v.entries :=
  List.filter_sublist.trans (List.take_sublist _ _)

theorem startMulticall_wellformed (h : v.entries.Nodup) (passes : α → Bool)
    (commands : List Text) : Frame.Wellformed (.multicall (startMulticall v passes commands)) := by
  refine ⟨h.sublist (visible_filter_sublist v passes), ?_, ?_⟩
  · rintro _ ⟨⟩ d hd
    exact hd
  · rintro _ d cs ⟨⟩ hr
    cases hr

theorem Invariant.lists {downloads : List α} {views : List (View α)}
    (h : Invariant s) (hd : downloads.Nodup)
    (hv : ∀ v ∈ views, v.entries.Nodup ∧ ∀ d ∈ v.entries, d ∈ downloads)
    (he : ∀ d ∈ s.erased, d ∉ downloads) (hs : ∀ d ∈ s.downloads, d ∈ downloads) :
    Invariant { s with downloads := downloads, views := views } := by
  refine ⟨hd, hv, he, h.frames, ?_, h.waits, h.quiet, h.late⟩
  intro f hf d hr
  exact (h.refs f hf d hr).imp_left (hs d)

theorem Invariant.setView {w : View α} (h : Invariant s)
    (hw : w.entries.Nodup ∧ ∀ d ∈ w.entries, d ∈ s.downloads) (i : ℕ) :
    Invariant { s with views := s.views.set i w } := by
  refine h.lists h.downloads ?_ h.erased (fun _ => id)
  intro v hv
  rcases List.mem_or_eq_of_mem_set hv with hv | rfl
  · exact h.views v hv
  · exact hw

variable [DecidableEq α]

theorem useCount_erased (h : Invariant s) (hd : d ∈ s.erased) :
    useCount s d = (s.frames.map (·.refs.count d)).sum := by
  have hn := h.erased d hd
  have hv : (s.views.map (·.entries.count d)).sum = 0 := by
    refine List.sum_eq_zero fun n hm => ?_
    obtain ⟨v, hv, rfl⟩ := List.mem_map.mp hm
    exact List.count_eq_zero.mpr fun hm => hn ((h.views v hv).2 d hm)
  rw [useCount, hv, List.count_eq_zero.mpr hn]
  simp

theorem useCount_outermost (h : Invariant s) (hf : s.frames = f :: below) (hd : d ∈ s.erased)
    (hp : Pending d f) : useCount s d = 1 := by
  have hw := h.frames f (by simp [hf])
  have hq := h.quiet d hd
  rw [Quiet, hf, List.pairwise_cons] at hq
  have hb : (below.map (·.refs.count d)).sum = 0 := by
    refine List.sum_eq_zero fun n hm => ?_
    obtain ⟨g, hg, rfl⟩ := List.mem_map.mp hm
    exact List.count_eq_zero.mpr (hq.1 g hg hp)
  rw [useCount_erased h hd, hf, List.map_cons, List.sum_cons, hb,
    List.count_eq_one_of_mem hw.nodup (pending_mem hw hp)]

theorem loopNext_invariant {m : Multicall α}
    (h : Invariant s) (hf : s.frames = .multicall m :: below) :
    Invariant (loopNext s m below) := by
  have hw := h.frames _ (show Frame.multicall m ∈ s.frames by simp [hf])
  have hnone : Invariant { s with frames := .multicall { m with row := none } :: below } := by
    refine h.replace hf ⟨hw.nodup, ?_, ?_⟩ rfl ?_
    · rintro _ ⟨⟩
      exact hw.todo m rfl
    · rintro _ d cs ⟨⟩ hr
      cases hr
    · rintro d (⟨c, cs, hr⟩ | ht)
      · cases hr
      · exact .inr ht
  rw [loopNext]
  split
  · rename_i hrow
    split
    · simpa [hf] using h.pop
    · rename_i d todo htodo
      have htd : ∀ e ∈ todo, e ∈ m.todo := fun e he => by simp [htodo, he]
      split
      · refine h.replace hf ⟨hw.nodup, ?_, ?_⟩ rfl ?_
        · rintro _ ⟨⟩ e he
          exact hw.todo m rfl e (htd e he)
        · rintro _ e cs ⟨⟩
          exact hw.row m e cs rfl
        · rintro e (hr | ⟨ht, hc⟩)
          · exact .inl hr
          · exact .inr ⟨htd e ht, hc⟩
      · refine h.replace hf ⟨hw.nodup, ?_, ?_⟩ rfl ?_
        · rintro _ ⟨⟩ e he
          exact hw.todo m rfl e (htd e he)
        · rintro _ e cs ⟨⟩ hr
          cases hr
          exact hw.todo m rfl d (by simp [htodo])
        · rintro e (⟨c, cs, hr⟩ | ⟨ht, hc⟩)
          · obtain ⟨rfl, hc⟩ : d = e ∧ m.commands = c :: cs := by simpa using hr
            exact .inr ⟨by simp [htodo], by simp [hc]⟩
          · exact .inr ⟨htd e ht, hc⟩
  · exact hnone
  · rename_i d c commands hrow
    split
    · exact hnone
    · rename_i hcount
      have hd : d ∉ s.erased := fun hd =>
        hcount (useCount_outermost h hf hd (.inl ⟨c, commands, hrow⟩))
      rw [if_neg hd]
      refine h.replace hf ⟨hw.nodup, ?_, ?_⟩ rfl ?_
      · rintro _ ⟨⟩
        exact hw.todo m rfl
      · rintro _ e cs ⟨⟩ hr
        cases hr
        exact hw.row m d _ rfl hrow
      · rintro e (⟨c', cs, hr⟩ | ht)
        · cases hr
          exact .inl ⟨c, _, hrow⟩
        · exact .inr ht

theorem insert_invariant (h : Invariant s) (hd : d ∉ s.downloads)
    (hn : d ∉ s.erased) : Invariant (next s (.insert d)) := by
  refine h.lists ?_ ?_ ?_ (fun e he => List.mem_append_left _ he)
  · simpa [List.nodup_append, h.downloads] using fun e he => ne_of_mem_of_not_mem he hd
  · intro w hw
    obtain ⟨v, hv, rfl⟩ := List.mem_map.mp hw
    have hm := h.views v hv
    constructor
    · simpa [View.insert, List.nodup_append, hm.1] using
        fun e he => ne_of_mem_of_not_mem (hm.2 e he) hd
    · intro e he
      rcases List.mem_append.mp he with he | he
      · exact List.mem_append_left _ (hm.2 e he)
      · exact List.mem_append_right _ he
  · intro e he hm
    rcases List.mem_append.mp hm with hm | hm
    · exact h.erased e he hm
    · rw [List.mem_singleton.mp hm] at he
      exact hn he

theorem erase_invariant (h : Invariant s) (hd : d ∈ s.downloads)
    (hv : ∀ v ∈ s.views, d ∉ v.entries) (hq : Quiet s d) :
    Invariant { s with downloads := s.downloads.erase d, erased := d :: s.erased } := by
  have hmem : ∀ e, e ∈ s.downloads.erase d ↔ e ≠ d ∧ e ∈ s.downloads :=
    fun e => h.downloads.mem_erase_iff
  constructor
  · exact h.downloads.erase d
  · intro v hm
    refine ⟨(h.views v hm).1, fun e he => (hmem e).mpr ⟨?_, (h.views v hm).2 e he⟩⟩
    rintro rfl
    exact hv v hm he
  · intro e he hm
    rcases List.mem_cons.mp he with rfl | he
    · exact ((hmem e).mp hm).1 rfl
    · exact h.erased e he ((hmem e).mp hm).2
  · exact h.frames
  · intro f hf e he
    by_cases hed : e = d
    · exact .inr (by simp [hed])
    · rcases h.refs f hf e he with hm | hm
      · exact .inl ((hmem e).mpr ⟨hed, hm⟩)
      · exact .inr (List.mem_cons_of_mem d hm)
  · exact h.waits
  · intro e he
    rcases List.mem_cons.mp he with rfl | he
    · exact hq
    · exact h.quiet e he
  · exact h.late

theorem step_preserves_invariant {e : Event α} (h : Invariant s)
    (hq : ErasesQuietly s e) (he : Enabled s e) : Invariant (next s e) := by
  cases e with
  | multicall view passes commands =>
    obtain ⟨v, hv⟩ := Option.isSome_iff_exists.mp he.2
    have hm := h.views v (findView_mem hv)
    simp only [next, hv]
    refine h.push he.1 (startMulticall_wellformed hm.1 passes commands) ?_
    exact fun d hd => hm.2 d ((visible_filter_sublist v passes).subset hd)
  | loop =>
    cases hf : s.frames with
    | nil => simp [Enabled, hf] at he
    | cons f below =>
      cases f with
      | multicall m => simpa [next, hf] using loopNext_invariant h hf
      | holding entries => simp [Enabled, hf, Frame.waits] at he
  | returns obj =>
    cases hf : s.frames with
    | nil => simp [Enabled, hf] at he
    | cons f below =>
      cases f with
      | holding entries => simp [Enabled, hf, Frame.isHolding] at he
      | multicall m =>
        have hw := h.frames _ (show Frame.multicall m ∈ s.frames by simp [hf])
        simp only [next, hf]
        refine h.replace hf ⟨hw.nodup, ?_, ?_⟩ rfl (fun d hp => hp)
        · rintro _ ⟨⟩
          exact hw.todo m rfl
        · rintro _ d cs ⟨⟩
          exact hw.row m d cs rfl
  | throws | release => exact h.pop
  | hold i entries =>
    obtain ⟨v, hv, hm⟩ := (Option.any_eq_true _ _).mp he.2
    simp only [Bool.and_eq_true, List.all_eq_true, decide_eq_true_eq] at hm
    refine h.push he.1 ⟨hm.2, by rintro _ ⟨⟩, by rintro _ _ _ ⟨⟩⟩ ?_
    exact fun d hd => (h.views v (List.mem_of_getElem? hv)).2 d (hm.1 d hd)
  | insert d => exact insert_invariant h he.2.1 he.2.2
  | insertView name =>
    refine h.lists h.downloads ?_ h.erased (fun _ => id)
    intro v hv
    rcases List.mem_append.mp hv with hv | hv
    · exact h.views v hv
    · rw [List.mem_singleton.mp hv]
      exact ⟨h.downloads, fun _ => id⟩
  | arrange i w =>
    obtain ⟨v, hv, -, hp⟩ := he.2
    have hm := h.views v (List.mem_of_getElem? hv)
    exact h.setView ⟨hp.nodup_iff.mpr hm.1, fun d hd => hm.2 d (hp.mem_iff.mp hd)⟩ i
  | eraseFromView i d =>
    obtain ⟨v, hv, hd⟩ := (Option.any_eq_true _ _).mp he.2
    have hm := h.views v (List.mem_of_getElem? hv)
    have hs : (v.eraseInternal (v.entries.idxOf d)).entries.Sublist v.entries :=
      List.eraseIdx_sublist _ _
    simp only [next, hv]
    exact h.setView ⟨hm.1.sublist hs, fun e he => hm.2 e (hs.subset he)⟩ i
  | erase d => exact erase_invariant h he.2.1 he.2.2 hq

def quietly : Machine (State α) (Event α) := machine.guarded ErasesQuietly

instance (s : State α) (e : Event α) : Decidable (quietly.Enabled s e) :=
  inferInstanceAs (Decidable (ErasesQuietly s e ∧ Enabled s e))

theorem quietly_invariant (h : Reachable quietly.system initial s) : Invariant s := by
  refine h.invariant initial_invariant ?_
  rintro s e _ hi ⟨he, rfl⟩
  exact step_preserves_invariant hi he.1 he.2

def CanBeLate (s : State α) : Prop := ∃ t, Reachable quietly.system s t ∧ t.late ≠ []

theorem CanBeLate.of_late (h : s.late ≠ []) : CanBeLate s := ⟨s, ⟨[], .nil s⟩, h⟩

theorem CanBeLate.of_next {e : Event α} (h : CanBeLate (next s e))
    (hq : ErasesQuietly s e) (he : Enabled s e) : CanBeLate s := by
  obtain ⟨t, ht, hl⟩ := h
  exact ⟨t, Machine.reachable_next (M := quietly) ⟨hq, he⟩ ht, hl⟩

theorem useCount_two (hs : s.frames = f :: below) (hf : d ∈ f.refs) (hg : g ∈ below)
    (hd : d ∈ g.refs) :
    useCount s d ≠ 1 := by
  have hone : 1 ≤ f.refs.count d := List.one_le_count_iff.mpr hf
  have htwo : 1 ≤ (below.map (·.refs.count d)).sum :=
    (List.one_le_count_iff.mpr hd).trans
      (List.single_le_sum (by simp) _ (List.mem_map.mpr ⟨g, hg, rfl⟩))
  rw [useCount, hs, List.map_cons, List.sum_cons]
  omega

def Multicall.rest (m : Multicall α) : ℕ :=
  m.todo.length * (m.commands.length + 2) +
    match m.row with
    | none => 0
    | some (_, commands) => commands.length + 1

/-- If a call further out holds an erased download too, the innermost multicall dispatches its
commands for it. -/
theorem canBeLate_of_pending {m : Multicall α}
    (hs : s.frames = .multicall m :: below) (hm : m.running = false)
    (hd : d ∈ s.erased) (hr : d ∈ m.dlist) (hg : g ∈ below) (hdg : d ∈ g.refs)
    (hp : Pending d (.multicall m)) : CanBeLate s := by
  induction hn : Multicall.rest m using Nat.strongRecOn generalizing s m with
  | ind n ih =>
    have htwo : useCount s d ≠ 1 := useCount_two hs hr hg hdg
    have hloop : Enabled s .loop := by simp [Enabled, hs, Frame.waits, hm]
    have hnext : next s .loop = loopNext s m below := by simp [next, hs]
    refine CanBeLate.of_next (e := .loop) ?_ trivial hloop
    rw [hnext, loopNext]
    subst hn
    split
    · rename_i hrow
      have ht : d ∈ m.todo ∧ m.commands ≠ [] := by
        rcases hp with ⟨c, cs, hc⟩ | ht
        · simp [hrow] at hc
        · exact ht
      split
      · rename_i htodo
        simp [htodo] at ht
      · rename_i e todo htodo
        split
        · rename_i hone
          -- the download is visited later, since its count is not one
          have hde : d ∈ todo := by
            rcases List.mem_cons.mp (htodo ▸ ht.1) with rfl | h
            · exact absurd hone htwo
            · exact h
          refine ih _ ?_ rfl hm hd hr (.inr ⟨hde, ht.2⟩) rfl
          simp [Multicall.rest, hrow, htodo, Nat.add_mul]
        · refine ih _ ?_ rfl hm hd hr ?_ rfl
          · simp [Multicall.rest, hrow, htodo, Nat.add_mul]
          · rcases List.mem_cons.mp (htodo ▸ ht.1) with rfl | h
            · obtain ⟨c, cs, hc⟩ := List.exists_cons_of_ne_nil ht.2
              exact .inl ⟨c, cs, by rw [hc]⟩
            · exact .inr ⟨h, ht.2⟩
    · rename_i e hrow
      refine ih _ ?_ rfl hm hd hr ?_ rfl
      · simp [Multicall.rest, hrow]
      · rcases hp with ⟨c, cs, hc⟩ | ht
        · simp [hrow] at hc
        · exact .inr ht
    · rename_i e c commands hrow
      split
      · rename_i hone
        refine ih _ ?_ rfl hm hd hr ?_ rfl
        · simp [Multicall.rest, hrow]
        · rcases hp with ⟨c', cs, hc⟩ | ht
          · obtain ⟨rfl, -⟩ : e = d ∧ _ := by simpa [hrow] using hc
            exact absurd hone htwo
          · exact .inr ht
      · by_cases he : e ∈ s.erased
        · exact CanBeLate.of_late (by simp [he])
        · have ht : d ∈ m.todo ∧ m.commands ≠ [] := by
            rcases hp with ⟨c', cs, hc⟩ | ht
            · obtain ⟨rfl, -⟩ : e = d ∧ _ := by simpa [hrow] using hc
              exact absurd hd he
            · exact ht
          refine CanBeLate.of_next (e := .returns .none) ?_ trivial ?_
          · refine ih _ ?_ rfl rfl hd hr (.inr ht) rfl
            simp [Multicall.rest, hrow]
          · simp [Enabled, Frame.waits, Frame.isHolding]

theorem canBeLate_of_frames {above : List (Frame α)} {m : Multicall α}
    (hs : s.frames = above ++ .multicall m :: below)
    (hw : ∀ f ∈ s.frames, f.waits = true) (hd : d ∈ s.erased) (hr : d ∈ m.dlist) (hg : g ∈ below)
    (hdg : d ∈ g.refs) (hp : Pending d (.multicall m)) : CanBeLate s := by
  induction above generalizing s with
  | nil =>
    have hm : m.running = true := hw (.multicall m) (by simp [hs])
    refine CanBeLate.of_next (e := .returns .none) ?_ trivial ?_
    · rw [next, hs]
      exact canBeLate_of_pending rfl rfl hd hr hg hdg hp
    · simp [Enabled, hs, Frame.waits, Frame.isHolding, hm]
  | cons f above ih =>
    have hf : f.waits = true := hw f (by simp [hs])
    have ht : CanBeLate { s with frames := s.frames.tail } :=
      ih (by simp [hs]) (fun k hk => hw k (List.mem_of_mem_tail hk)) hd
    cases f with
    | multicall k =>
      refine CanBeLate.of_next (e := .throws) ht trivial ?_
      simpa [Enabled, hs, Frame.isHolding] using hf
    | holding entries =>
      refine CanBeLate.of_next (e := .release) ht trivial ?_
      simp [Enabled, hs, Frame.isHolding]

omit [DecidableEq α] in
theorem exists_of_not_pairwise {R : α → α → Prop} {l : List α} (h : ¬l.Pairwise R) :
    ∃ above a below, l = above ++ a :: below ∧ ∃ b ∈ below, ¬R a b := by
  induction l with
  | nil => exact absurd List.Pairwise.nil h
  | cons a l ih =>
    by_cases ha : ∀ b ∈ l, R a b
    · obtain ⟨above, c, below, rfl, hb⟩ := ih fun hl => h (.cons ha hl)
      exact ⟨a :: above, c, below, rfl, hb⟩
    · obtain ⟨b, hb, hr⟩ : ∃ b ∈ l, ¬R a b := by simpa using ha
      exact ⟨[], a, l, rfl, b, hb, hr⟩

theorem erase_canBeLate (h : Invariant s) (he : Enabled s (.erase d))
    (hq : ¬Quiet s d) : CanBeLate (next s (.erase d)) := by
  obtain ⟨above, f, below, hs, g, hg, hn⟩ := exists_of_not_pairwise hq
  have hw := h.frames f (by simp [hs])
  obtain ⟨hp, hdg⟩ : Pending d f ∧ d ∈ g.refs := by simpa using hn
  cases f with
  | holding entries => exact hp.elim
  | multicall m =>
    have ha : ∀ f ∈ s.frames, f.waits = true := active_waits he.1 h
    exact canBeLate_of_frames (s := next s (.erase d)) hs ha (List.mem_cons_self ..)
      (pending_mem hw hp) hg hdg hp

/-- In a run in which each download is erased while only the outermost of the calls that hold it
has commands left for it, no command is dispatched on an erased download. A step keeps it so
exactly when it is of this kind. -/
theorem erased_not_dispatched_iff {s : State α} (h : Reachable quietly.system initial s) :
    s.late = [] ∧ ∀ e, Enabled s e →
      ((∀ t, Reachable quietly.system (next s e) t → t.late = []) ↔ ErasesQuietly s e) := by
  have hi := quietly_invariant h
  refine ⟨hi.late, fun e he => ⟨?_, ?_⟩⟩
  · intro ht
    by_contra hq
    cases e with
    | erase d =>
      obtain ⟨t, hr, hl⟩ := erase_canBeLate hi he hq
      exact hl (ht t hr)
    | _ => exact hq trivial
  · intro hq t ht
    refine (ht.invariant (step_preserves_invariant hi hq he) ?_ : Invariant t).late
    rintro u k _ hu ⟨hk, rfl⟩
    exact step_preserves_invariant hu hk.1 hk.2

/-- A command of a multicall erases the download it runs on. -/
def erasingRun : List (Event ℕ) :=
  [.insertView "default", .insert 0, .arrange 0 ⟨"default", [0], 1, 0, false, false⟩,
    .multicall "" (fun _ => true) [['e'], ['n']], .loop, .loop, .eraseFromView 0 0, .erase 0,
    .returns .none, .loop, .loop]

/-- The same, where the command that erases it is in a multicall of its own, which has a
further command. -/
def nestedRun : List (Event ℕ) :=
  [.insertView "default", .insert 0, .arrange 0 ⟨"default", [0], 1, 0, false, false⟩,
    .multicall "" (fun _ => true) [['m']], .loop, .loop,
    .multicall "" (fun _ => true) [['e'], ['n']], .loop, .loop, .eraseFromView 0 0, .erase 0,
    .returns .none, .loop]

theorem erasingRun_not_late :
    (quietly.replay initial erasingRun).erased = [0] ∧
      (quietly.replay initial erasingRun).late = [] := by
  have ha : quietly.Accepts initial erasingRun := by decide +kernel
  exact ⟨by decide +kernel, (erased_not_dispatched_iff ⟨_, ha.execution⟩).1⟩

theorem nestedRun_late :
    (machine.Accepts (initial : State ℕ) nestedRun) ∧
      (machine.replay initial nestedRun).late = [0] := by
  decide +kernel

end MulticallDispatch
