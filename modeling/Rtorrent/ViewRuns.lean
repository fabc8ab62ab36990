import Rtorrent.TransitionSystems
import Rtorrent.ViewModel

/-! # Every view holds the download list

The download list and its views over whole runs. An event command may call `set_visible` and
`set_not_visible` on any view, whose own events run first, so its calls form a tree. -/
namespace ViewRuns

open ViewModel TransitionSystems

variable {α : Type*}

structure State (α : Type*) where
  downloads : List α
  views : List (View α)
  deriving DecidableEq, Repr

def State.setView (s : State α) (i : ℕ) (v : View α) : State α :=
  { s with views := s.views.set i v }

/-- Every view is valid and has the same downloads as before, in some order. -/
structure Keeps (s t : State α) : Prop where
  downloads : t.downloads = s.downloads
  length : t.views.length = s.views.length
  perm : ∀ (j : ℕ) (v : View α), s.views[j]? = some v →
    ∃ w, t.views[j]? = some w ∧ w.entries.Perm v.entries
  valid : ∀ w ∈ t.views, w.Valid

section

variable {s : State α}

theorem Keeps.refl (h : ∀ v ∈ s.views, v.Valid) : Keeps s s :=
  ⟨rfl, rfl, fun _ v hv => ⟨v, hv, List.Perm.refl _⟩, h⟩

variable {t : State α}

theorem Keeps.trans {u : State α} (h : Keeps s t) (k : Keeps t u) : Keeps s u := by
  refine ⟨k.downloads.trans h.downloads, k.length.trans h.length, ?_, k.valid⟩
  intro j v hv
  obtain ⟨w, hw, hp⟩ := h.perm j v hv
  obtain ⟨x, hx, hq⟩ := k.perm j w hw
  exact ⟨x, hx, hq.trans hp⟩

variable {w : View α}

theorem getElem?_of_length_eq {vs ws : List (View α)} (h : ws.length = vs.length) {j : ℕ}
    (hw : ws[j]? = some w) : ∃ v, vs[j]? = some v := by
  have hj := (List.getElem?_eq_some_iff.mp hw).1
  exact ⟨vs[j], List.getElem?_eq_getElem (h ▸ hj)⟩

theorem Keeps.source (h : Keeps s t) (hw : w ∈ t.views) :
    ∃ v ∈ s.views, w.entries.Perm v.entries := by
  obtain ⟨j, hj⟩ := List.getElem?_of_mem hw
  obtain ⟨v, hv⟩ := getElem?_of_length_eq h.length hj
  obtain ⟨x, hx, hp⟩ := h.perm j v hv
  obtain rfl : x = w := Option.some.inj (hx ▸ hj)
  exact ⟨v, List.mem_of_getElem? hv, hp⟩

variable {i : ℕ} {v : View α}

theorem valid_of_getElem? (h : ∀ v ∈ s.views, v.Valid) (hv : s.views[i]? = some v) : v.Valid :=
  h v (List.mem_of_getElem? hv)

theorem setView_valid (h : ∀ v ∈ s.views, v.Valid) (i : ℕ)
    (hw : w.Valid) : ∀ v ∈ (s.setView i w).views, v.Valid := by
  intro v hv
  rcases List.mem_or_eq_of_mem_set hv with hv | rfl
  · exact h v hv
  · exact hw

theorem getElem?_setView_self (hv : s.views[i]? = some v)
    (w : View α) : (s.setView i w).views[i]? = some w := by
  have hl := (List.getElem?_eq_some_iff.mp hv).1
  simp [State.setView, hl]

theorem getElem?_setView_ne {j : ℕ} (h : i ≠ j) (w : View α) :
    (s.setView i w).views[j]? = s.views[j]? := by
  simp [State.setView, h]

theorem setView_keeps (h : ∀ v ∈ s.views, v.Valid)
    (hv : s.views[i]? = some v) (hw : w.Valid) (hp : w.entries.Perm v.entries) :
    Keeps s (s.setView i w) := by
  refine ⟨rfl, by simp [State.setView], ?_, setView_valid h i hw⟩
  intro j x hx
  by_cases hj : i = j
  · subst hj
    obtain rfl : v = x := Option.some.inj (hv ▸ hx)
    exact ⟨w, getElem?_setView_self hv w, hp⟩
  · exact ⟨x, by rw [getElem?_setView_ne hj]; exact hx, List.Perm.refl _⟩

structure Consistent (s : State α) : Prop where
  nodup : s.downloads.Nodup
  perm : ∀ v ∈ s.views, v.entries.Perm s.downloads
  valid : ∀ v ∈ s.views, v.Valid

theorem Keeps.consistent (h : Keeps s t) (hs : Consistent s) : Consistent t := by
  refine ⟨h.downloads ▸ hs.nodup, fun w hw => ?_, h.valid⟩
  obtain ⟨v, hv, hp⟩ := h.source hw
  exact h.downloads ▸ hp.trans (hs.perm v hv)

theorem setView_consistent (h : Consistent s)
    (hv : s.views[i]? = some v) (hw : w.Valid) (hp : w.entries.Perm v.entries) :
    Consistent (s.setView i w) :=
  (setView_keeps h.valid hv hw hp).consistent h

/-- The list after `push_back` in it and in every view. -/
def pushBack (s : State α) (d : α) : State α :=
  { downloads := s.downloads ++ [d], views := s.views.map (·.insert d) }

theorem pushBack_consistent (h : Consistent s) {d : α} (hd : d ∉ s.downloads) :
    Consistent (pushBack s d) := by
  refine ⟨List.nodup_append.mpr ⟨h.nodup, by simp, ?_⟩, ?_, ?_⟩
  · intro a ha b hb
    obtain rfl := List.mem_singleton.mp hb
    intro he
    exact hd (he ▸ ha)
  · intro w hw
    obtain ⟨v, hv, rfl⟩ := List.mem_map.mp hw
    exact (h.perm v hv).append_right _
  · intro w hw
    obtain ⟨v, hv, rfl⟩ := List.mem_map.mp hw
    exact View.insert_valid (h.valid v hv) d

end

variable [DecidableEq α]

/-- Running a number of event commands one after the other. `next` ends the first one;
the other two are one call that it makes, with the events of that call. -/
inductive RunEvents : State α → ℕ → State α → Prop where
  | nil (s) : RunEvents s 0 s
  | next {s n t} : RunEvents s n t → RunEvents s (n + 1) t
  | setVisible {s t u n} (i v less d) (hv : s.views[i]? = some v) :
      RunEvents (s.setView i (v.setVisible less d).1) (v.setVisible less d).2.length t →
      RunEvents t (n + 1) u → RunEvents s (n + 1) u
  | setNotVisible {s t u n} (i v d) (hv : s.views[i]? = some v) :
      RunEvents (s.setView i (v.setNotVisible d).1) (v.setNotVisible d).2.length t →
      RunEvents t (n + 1) u → RunEvents s (n + 1) u

/-- The loop of `DownloadList::insert` over `filter_download`, from the view at an index on. -/
inductive FilterViews (d : α) : ℕ → State α → State α → Prop where
  | done {i s} (h : s.views.length ≤ i) : FilterViews d i s s
  | throws {i s v} (passes less) (msg) (hv : s.views[i]? = some v)
      (h : v.filterDownload passes less d = .error msg) : FilterViews d i s s
  | view {i s t u v} (passes less) (w es) (hv : s.views[i]? = some v)
      (h : v.filterDownload passes less d = .ok (w, es)) :
      RunEvents (s.setView i w) es.length t → FilterViews d (i + 1) t u → FilterViews d i s u

/-- The loop of `DownloadList::erase` over `View::erase`; the flag says that it ended. -/
inductive EraseViews (d : α) : ℕ → State α → Bool → State α → Prop where
  | done {i s} (h : s.views.length ≤ i) : EraseViews d i s true s
  | throws {i s v} (msg) (hv : s.views[i]? = some v) (h : v.erase d = .error msg) :
      EraseViews d i s false s
  | view {i s t u v ok} (w es) (hv : s.views[i]? = some v) (h : v.erase d = .ok (w, es)) :
      RunEvents (s.setView i w) es.length t → EraseViews d (i + 1) t ok u →
      EraseViews d i s ok u

inductive Event (α : Type*) where
  | insert (d : α)
  | erase (d : α)
  | insertView (name : String)
  | setVisible (i : ℕ) (d : α)
  | setNotVisible (i : ℕ) (d : α)
  | filter (i : ℕ)
  | filterDownload (i : ℕ) (d : α)
  | sort (i : ℕ)
  | setFocus (i pos : ℕ)
  | nextFocus (i n : ℕ)
  | prevFocus (i n : ℕ)

inductive Step : State α → Event α → State α → Prop where
  | insert {s t u n} (d) (hd : d ∉ s.downloads) : FilterViews d 0 (pushBack s d) t →
      RunEvents t n u → Step s (.insert d) u
  | eraseMissing {s} (d) (hd : d ∉ s.downloads) : Step s (.erase d) s
  | erase {s t u n} (d) (hd : d ∈ s.downloads) : RunEvents s n t → EraseViews d 0 t true u →
      Step s (.erase d) { u with downloads := u.downloads.erase d }
  | eraseThrows {s t u n} (d) (hd : d ∈ s.downloads) : RunEvents s n t →
      EraseViews d 0 t false u → Step s (.erase d) u
  | insertViewThrows {s} (name) (h : name = "" ∨ ∃ v ∈ s.views, v.name = name) :
      Step s (.insertView name) s
  | insertView {s} (name) (h : name ≠ "") (hn : ∀ v ∈ s.views, v.name ≠ name) :
      Step s (.insertView name) { s with views := s.views ++ [.initialized name s.downloads] }
  | setVisible {s t} (i v less d) (hv : s.views[i]? = some v) :
      RunEvents (s.setView i (v.setVisible less d).1) (v.setVisible less d).2.length t →
      Step s (.setVisible i d) t
  | setNotVisible {s t} (i v d) (hv : s.views[i]? = some v) :
      RunEvents (s.setView i (v.setNotVisible d).1) (v.setNotVisible d).2.length t →
      Step s (.setNotVisible i d) t
  | filter {s t} (i v passes) (hv : s.views[i]? = some v) :
      RunEvents (s.setView i (v.filter passes).1) (v.filter passes).2.length t →
      Step s (.filter i) t
  | filterDownloadThrows {s} (i v passes less d msg) (hv : s.views[i]? = some v)
      (h : v.filterDownload passes less d = .error msg) : Step s (.filterDownload i d) s
  | filterDownload {s t} (i v passes less d w es) (hv : s.views[i]? = some v)
      (h : v.filterDownload passes less d = .ok (w, es)) :
      RunEvents (s.setView i w) es.length t → Step s (.filterDownload i d) t
  | sort {s} (i v less) (hv : s.views[i]? = some v) : Step s (.sort i) (s.setView i (v.sort less))
  | setFocus {s} (i v pos) (hv : s.views[i]? = some v) (hp : pos < v.size) :
      Step s (.setFocus i pos) (s.setView i (v.setFocus pos))
  | nextFocus {s} (i v n) (hv : s.views[i]? = some v) (hn : n < 2 ^ 32) :
      Step s (.nextFocus i n) (s.setView i (v.nextFocus n))
  | prevFocus {s} (i v n) (hv : s.views[i]? = some v) (hn : n < 2 ^ 32) :
      Step s (.prevFocus i n) (s.setView i (v.prevFocus n))

def system : System (State α) (Event α) := ⟨Step⟩

def initial : State α := ⟨[], []⟩

/-- The focus is moved only in a view that shows a download, or has none at all, or forward
by one. -/
def FocusMoves (s : State α) : Event α → Prop
  | .nextFocus i n => ∀ v ∈ s.views[i]?, v.entries = [] ∨ 0 < v.size ∨ n = 1
  | .prevFocus i _ => ∀ v ∈ s.views[i]?, v.entries = [] ∨ 0 < v.size
  | _ => True

variable {s t : State α} {n : ℕ}

theorem runEvents_keeps (h : RunEvents s n t) (hs : ∀ v ∈ s.views, v.Valid) : Keeps s t := by
  induction h with
  | nil s => exact Keeps.refl hs
  | next _ ih => exact ih hs
  | setVisible i v less d hv _ _ ih ihn =>
    have hvalid := valid_of_getElem? hs hv
    have hk := setView_keeps hs hv (View.setVisible_valid hvalid less d)
      (View.setVisible_perm hvalid less d)
    have hr := ih hk.valid
    exact (hk.trans hr).trans (ihn hr.valid)
  | setNotVisible i v d hv _ _ ih ihn =>
    have hvalid := valid_of_getElem? hs hv
    have hk := setView_keeps hs hv (View.setNotVisible_valid hvalid d)
      (View.setNotVisible_perm v d)
    have hr := ih hk.valid
    exact (hk.trans hr).trans (ihn hr.valid)

variable {d : α}

theorem filterViews_keeps {i : ℕ} (h : FilterViews d i s t)
    (hs : ∀ v ∈ s.views, v.Valid) : Keeps s t := by
  induction h with
  | done => exact Keeps.refl hs
  | throws => exact Keeps.refl hs
  | view passes less w es hv h hr _ ih =>
    obtain ⟨hw, hp⟩ := View.filterDownload_spec (valid_of_getElem? hs hv) h
    have hk := setView_keeps hs hv hw hp
    have hrun := hk.trans (runEvents_keeps hr hk.valid)
    exact hrun.trans (ih hrun.valid)

/-- The views from the index on have lost the download, those before it are as they were. -/
structure Erased (d : α) (i : ℕ) (s t : State α) : Prop where
  downloads : t.downloads = s.downloads
  length : t.views.length = s.views.length
  lost : ∀ (j : ℕ) (v : View α), i ≤ j → s.views[j]? = some v →
    ∃ w, t.views[j]? = some w ∧ (d :: w.entries).Perm v.entries
  kept : ∀ (j : ℕ) (v : View α), j < i → s.views[j]? = some v →
    ∃ w, t.views[j]? = some w ∧ w.entries.Perm v.entries
  valid : ∀ w ∈ t.views, w.Valid

theorem eraseViews_erased {i : ℕ} {ok : Bool}
    (h : EraseViews d i s ok t) (hs : ∀ v ∈ s.views, v.Valid)
    (hd : ∀ (j : ℕ) (v : View α), i ≤ j → s.views[j]? = some v → d ∈ v.entries) :
    ok = true ∧ Erased d i s t := by
  induction h with
  | done hl =>
    refine ⟨rfl, rfl, rfl, ?_, fun _ v _ hv => ⟨v, hv, List.Perm.refl _⟩, hs⟩
    intro j v hj hv
    have := (List.getElem?_eq_some_iff.mp hv).1
    omega
  | throws msg hv h =>
    obtain ⟨w, es, he, -⟩ := View.erase_spec (valid_of_getElem? hs hv) (hd _ _ (Nat.le_refl _) hv)
    cases h.symm.trans he
  | @view i s t u v ok w es hv h hr _ ih =>
    obtain ⟨w', es', he, hw, hp⟩ :=
      View.erase_spec (valid_of_getElem? hs hv) (hd _ _ (Nat.le_refl _) hv)
    cases h.symm.trans he
    have hk := runEvents_keeps hr (setView_valid hs i hw)
    have hlen : t.views.length = s.views.length := hk.length.trans (by simp [State.setView])
    have hne : ∀ (j : ℕ) (x : View α), i ≠ j → s.views[j]? = some x →
        ∃ y, t.views[j]? = some y ∧ y.entries.Perm x.entries := by
      intro j x hj hx
      exact hk.perm j x (by rw [getElem?_setView_ne hj]; exact hx)
    obtain ⟨rfl, hu⟩ := ih hk.valid (by
      intro j y hj hy
      obtain ⟨x, hx⟩ := getElem?_of_length_eq hlen hy
      obtain ⟨z, hz, hpz⟩ := hne j x (by omega) hx
      obtain rfl : z = y := Option.some.inj (hz ▸ hy)
      exact hpz.mem_iff.mpr (hd j x (by omega) hx))
    refine ⟨rfl, hu.downloads.trans hk.downloads, ?_, ?_, ?_, hu.valid⟩
    · exact hu.length.trans hlen
    · intro j x hj hx
      by_cases he : i = j
      · subst he
        obtain rfl : v = x := Option.some.inj (hv ▸ hx)
        obtain ⟨y, hy, hpy⟩ := hk.perm i w (getElem?_setView_self hv w)
        obtain ⟨z, hz, hpz⟩ := hu.kept i y (by omega) hy
        exact ⟨z, hz, ((hpz.trans hpy).cons d).trans hp⟩
      · obtain ⟨y, hy, hpy⟩ := hne j x he hx
        obtain ⟨z, hz, hpz⟩ := hu.lost j y (by omega) hy
        exact ⟨z, hz, hpz.trans hpy⟩
    · intro j x hj hx
      obtain ⟨y, hy, hpy⟩ := hne j x (by omega) hx
      obtain ⟨z, hz, hpz⟩ := hu.kept j y (by omega) hy
      exact ⟨z, hz, hpz.trans hpy⟩

theorem runEvents_consistent (h : Consistent s) (hr : RunEvents s n t) : Consistent t :=
  (runEvents_keeps hr h.valid).consistent h

theorem insert_consistent {u : State α} (h : Consistent s)
    (hd : d ∉ s.downloads) (hf : FilterViews d 0 (pushBack s d) t) (hr : RunEvents t n u) :
    Consistent u := by
  have hp := pushBack_consistent h hd
  exact runEvents_consistent ((filterViews_keeps hf hp.valid).consistent hp) hr

theorem erase_consistent {u : State α} {ok : Bool} (h : Consistent s)
    (hd : d ∈ s.downloads) (hr : RunEvents s n t) (he : EraseViews d 0 t ok u) :
    ok = true ∧ Consistent { u with downloads := u.downloads.erase d } := by
  have hk := runEvents_keeps hr h.valid
  have ht := hk.consistent h
  have hdt : d ∈ t.downloads := hk.downloads ▸ hd
  obtain ⟨rfl, hu⟩ := eraseViews_erased he ht.valid fun j v _ hv =>
    (ht.perm v (List.mem_of_getElem? hv)).mem_iff.mpr hdt
  refine ⟨rfl, hu.downloads ▸ ht.nodup.erase d, fun w hw => ?_, hu.valid⟩
  obtain ⟨j, hj⟩ := List.getElem?_of_mem hw
  obtain ⟨v, hv⟩ := getElem?_of_length_eq hu.length hj
  obtain ⟨x, hx, hp⟩ := hu.lost j v (Nat.zero_le j) hv
  obtain rfl : x = w := Option.some.inj (hx ▸ hj)
  have hperm := hp.trans (ht.perm v (List.mem_of_getElem? hv))
  exact hu.downloads ▸ (List.cons_perm_iff_perm_erase.mp hperm).2

theorem step_preserves_consistent {e : Event α} (h : Consistent s)
    (hg : FocusMoves s e) (hs : Step s e t) : Consistent t := by
  cases hs with
  | insert d hd hf hr => exact insert_consistent h hd hf hr
  | eraseMissing | insertViewThrows | filterDownloadThrows => exact h
  | erase d hd hr he => exact (erase_consistent h hd hr he).2
  | eraseThrows d hd hr he => cases (erase_consistent h hd hr he).1
  | insertView name =>
    constructor
    · exact h.nodup
    · intro v hv
      rcases List.mem_append.mp hv with hv | hv
      · exact h.perm v hv
      · rw [List.mem_singleton.mp hv]
        exact List.Perm.refl _
    · intro v hv
      rcases List.mem_append.mp hv with hv | hv
      · exact h.valid v hv
      · rw [List.mem_singleton.mp hv]
        exact View.initialized_valid name s.downloads
  | setVisible i v less d hv hr =>
    have hvalid := valid_of_getElem? h.valid hv
    exact runEvents_consistent (setView_consistent h hv (View.setVisible_valid hvalid less d)
      (View.setVisible_perm hvalid less d)) hr
  | setNotVisible i v d hv hr =>
    have hvalid := valid_of_getElem? h.valid hv
    exact runEvents_consistent (setView_consistent h hv (View.setNotVisible_valid hvalid d)
      (View.setNotVisible_perm v d)) hr
  | filter i v passes hv hr =>
    exact runEvents_consistent (setView_consistent h hv
      (View.filter_valid (valid_of_getElem? h.valid hv) passes) (View.filter_perm passes v)) hr
  | filterDownload i v passes less d w es hv hf hr =>
    obtain ⟨hw, hp⟩ := View.filterDownload_spec (valid_of_getElem? h.valid hv) hf
    exact runEvents_consistent (setView_consistent h hv hw hp) hr
  | sort i v less hv =>
    exact setView_consistent h hv (View.sort_valid (valid_of_getElem? h.valid hv) less)
      (View.sort_perm v less)
  | setFocus i v pos hv hp =>
    have hvalid := valid_of_getElem? h.valid hv
    exact setView_consistent h hv ⟨hvalid.size_le, Nat.le_of_lt hp⟩ (List.Perm.refl _)
  | nextFocus i v n hv =>
    have hvalid := View.nextFocus_valid (valid_of_getElem? h.valid hv) (hg v hv)
    exact setView_consistent h hv hvalid (View.nextFocus_entries v n ▸ List.Perm.refl _)
  | prevFocus i v n hv =>
    have hvalid := View.prevFocus_valid (valid_of_getElem? h.valid hv) n (hg v hv)
    exact setView_consistent h hv hvalid (View.prevFocus_entries v n ▸ List.Perm.refl _)

/-- After every operation of a run whose focus moves are of this kind, each view holds the
download list and its indices are in bounds. -/
theorem reachable_consistent {s : State α}
    (h : Reachable (system.guarded FocusMoves) initial s) : Consistent s :=
  h.invariant ⟨List.nodup_nil, by simp [initial], by simp [initial]⟩ fun _ _ _ hc hs =>
    step_preserves_consistent hc hs.1 hs.2

def hiddenOnly : State ℕ := ⟨[0], [⟨"main", [0], 0, 0, false, false⟩]⟩

theorem hiddenOnly_execution :
    Execution (system.guarded FocusMoves) initial [.insertView "main", .insert 0] hiddenOnly := by
  refine .cons ⟨trivial, .insertView "main" (by decide) (by simp [initial])⟩
    (.cons ⟨trivial, ?_⟩ (.nil _))
  refine .insert 0 (by simp [initial]) (.view (fun _ => false) (fun _ _ => false) _ _ rfl rfl
    (.nil _) (.done (Nat.le_refl _))) (.nil _)

theorem hiddenOnly_consistent :
    Reachable (system.guarded FocusMoves) initial hiddenOnly ∧ Consistent hiddenOnly :=
  ⟨⟨_, hiddenOnly_execution⟩, reachable_consistent ⟨_, hiddenOnly_execution⟩⟩

/-- There `prev_focus(1)` moves the focus to the largest index and `next_focus(2)` past the
visible downloads. -/
theorem focus_out_of_bounds :
    (Reachable system initial (hiddenOnly.setView 0 (hiddenOnly.views[0].prevFocus 1)) ∧
      ¬ Consistent (hiddenOnly.setView 0 (hiddenOnly.views[0].prevFocus 1))) ∧
    Reachable system initial (hiddenOnly.setView 0 (hiddenOnly.views[0].nextFocus 2)) ∧
      ¬ Consistent (hiddenOnly.setView 0 (hiddenOnly.views[0].nextFocus 2)) := by
  have hr := hiddenOnly_execution.unguarded
  have hc : ∀ v : View ℕ, v.size < v.focus → ¬ Consistent (hiddenOnly.setView 0 v) := by
    intro v hv hc
    have := (hc.valid v (by simp [State.setView, hiddenOnly])).focus_le
    omega
  refine ⟨⟨?_, ?_⟩, ?_, ?_⟩
  · exact ⟨_, hr.trans (.cons (.prevFocus 0 _ 1 rfl (by decide)) (.nil _))⟩
  · exact hc _ (by decide)
  · exact ⟨_, hr.trans (.cons (.nextFocus 0 _ 2 rfl (by decide)) (.nil _))⟩
  · exact hc _ (by decide)

end ViewRuns
