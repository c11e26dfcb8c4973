import BusPlot.Library.StackDepths
import BusPlot.PlotSeries

/-!
# The stacks of the user interface during a frame

`Begin` pushes a window whatever it returns, `BeginTable` and `BeginPlot` push
only when they return true. Windows are counted above the one that `NewFrame`
opens itself and `End` never closes. What a call returns is part of the frame;
calls that leave the stacks alone are left out.
-/

set_option autoImplicit false

namespace BusPlot.RenderFrame
open BusPlot.PlotSeries StackDepths

inductive Stack
  | window
  | table
  | plot
  | id
  | styleVar
  | disabled
  | textWrapPos
  | plotStyleVar
  | plotStyleColor
  | colormap
  deriving DecidableEq

abbrev UI := Walk Stack

abbrev Depths := Stack → ℕ

def opening (k : Stack) (opens : Bool) : UI Bool := do
  whenever opens (push k)
  pure opens

namespace ImGui

def newFrame : UI Unit := clear .window

def render : UI Unit := clear .window

def beginWindow (opens : Bool) : UI Bool := do
  push .window
  pure opens

def endWindow : UI Unit := pop .window

def beginTooltip : UI Unit := push .window
def endTooltip : UI Unit := endWindow

def beginTable : Bool → UI Bool := opening .table
def endTable : UI Unit := pop .table

def pushID : UI Unit := push .id
def popID : UI Unit := pop .id

def pushStyleVar : UI Unit := push .styleVar

def popStyleVar : ℕ → UI Unit
  | 0 => pure ()
  | count+1 => do
    pop .styleVar
    popStyleVar count

def pushDisabled : UI Unit := push .disabled
def popDisabled : UI Unit := pop .disabled

def pushTextWrapPos : UI Unit := push .textWrapPos
def popTextWrapPos : UI Unit := pop .textWrapPos

end ImGui

namespace ImPlot

def beginPlot : Bool → UI Bool := opening .plot
def endPlot : UI Unit := pop .plot

def pushStyleVar : UI Unit := push .plotStyleVar
def popStyleVar : UI Unit := pop .plotStyleVar

def pushStyleColor : UI Unit := push .plotStyleColor
def popStyleColor : UI Unit := pop .plotStyleColor

def pushColormap : UI Unit := push .colormap
def popColormap : UI Unit := pop .colormap

end ImPlot

structure Row where
  beginPlot : Bool
  dots : List Dot

/-- What the calls of a frame return: for each window whether `Begin` says that
it can be seen, and which help marks the mouse is over. -/
structure Frame where
  dockSpaceDemo : Bool
  connection : Bool
  chart : Bool
  beginPlot : Bool
  signals : Bool
  beginTable : Bool
  rows : List Row
  arguments : Bool
  hoveredKp : Bool
  hoveredKi : Bool
  hoveredKd : Bool

def renderPlot (beginPlot : Bool) : UI Unit := do
  whenever (← ImPlot.beginPlot beginPlot) ImPlot.endPlot

def sparklinePlot (row : Row) : UI Unit := do
  whenever (← ImPlot.beginPlot row.beginPlot) do
    whenever (!row.dots.isEmpty) do
      ImPlot.pushStyleColor
      ImPlot.pushStyleVar
      ImPlot.popStyleVar
      ImPlot.popStyleColor
    ImPlot.endPlot

def sparkline (row : Row) : UI Unit := do
  ImPlot.pushStyleVar
  sparklinePlot row
  ImPlot.popStyleVar

def renderTable (beginTable : Bool) (rows : List Row) : UI Unit := do
  whenever (← ImGui.beginTable beginTable) do
    ImPlot.pushColormap
    rows.forM fun row => do
      ImGui.pushID
      sparkline row
      ImGui.popID
    ImPlot.popColormap
    ImGui.endTable

def helpMarker (hovered : Bool) : UI Unit :=
  whenever hovered do
    ImGui.beginTooltip
    ImGui.pushTextWrapPos
    ImGui.popTextWrapPos
    ImGui.endTooltip

def dockSpaceWindow (f : Frame) : UI Unit := do
  ImGui.pushStyleVar
  ImGui.pushStyleVar
  ImGui.pushStyleVar
  let _ ← ImGui.beginWindow f.dockSpaceDemo
  ImGui.popStyleVar 3
  ImGui.endWindow

def connectionWindow (f : Frame) : UI Unit := do
  whenever (← ImGui.beginWindow f.connection) do
    ImGui.pushDisabled
    ImGui.popDisabled
    ImGui.endWindow

def chartWindow (f : Frame) : UI Unit := do
  whenever (← ImGui.beginWindow f.chart) do
    renderPlot f.beginPlot
    ImGui.endWindow

def signalsWindow (f : Frame) : UI Unit := do
  whenever (← ImGui.beginWindow f.signals) do
    renderTable f.beginTable f.rows
    ImGui.endWindow

def argumentsWindow (f : Frame) : UI Unit := do
  whenever (← ImGui.beginWindow f.arguments) do
    helpMarker f.hoveredKp
    helpMarker f.hoveredKi
    helpMarker f.hoveredKd
    ImGui.endWindow

def unpadded (window : UI Unit) : UI Unit := do
  ImGui.pushStyleVar
  window
  ImGui.popStyleVar 1

def windows (f : Frame) : UI Unit := do
  dockSpaceWindow f
  connectionWindow f
  unpadded (chartWindow f)
  unpadded (signalsWindow f)
  argumentsWindow f

def render (f : Frame) : UI (Depths × Depths) := do
  ImGui.newFrame
  let after ← get
  windows f
  let atRender ← get
  ImGui.render
  pure (after, atRender)

theorem opening_moves (k : Stack) (opens : Bool) (ks : List Stack) :
    Moves (opening k opens) ks opens (if opens then k::ks else ks) :=
  moves_bind (moves_whenever opens (moves_push k ks)) (moves_pure opens _)

/-- A region that closes itself when it was opened leaves nothing. -/
theorem region_moves (k : Stack) (opens : Bool) {p : UI Unit} (h : Moves p [k] () []) :
    Moves (do whenever (← opening k opens) p) [] () [] := by
  apply moves_bind (opening_moves k opens [])
  cases opens with
  | false => exact moves_pure () []
  | true => exact h

theorem renderPlot_moves (beginPlot : Bool) : Moves (renderPlot beginPlot) [] () [] :=
  region_moves Stack.plot beginPlot (moves_pop_top Stack.plot [])

theorem sparklinePlot_moves (row : Row) : Moves (sparklinePlot row) [] () [] := by
  apply region_moves .plot
  apply moves_bind (moves_whenever _ (moves_nested Stack.plotStyleColor .plotStyleVar [.plot]))
  rw [ite_self]
  exact moves_pop_top _ _

theorem sparkline_moves (row : Row) : Moves (sparkline row) [] () [] :=
  moves_within Stack.plotStyleVar (sparklinePlot_moves row)

theorem renderTable_moves (beginTable : Bool) (rows : List Row) :
    Moves (renderTable beginTable rows) [] () [] := by
  apply region_moves .table
  have hrow : ∀ row ∈ rows, Moves (do
      ImGui.pushID
      sparkline row
      ImGui.popID) [Stack.colormap, .table] () [.colormap, .table] := by
    intro row _
    exact moves_frame (moves_within Stack.id (sparkline_moves row)) [.colormap, .table]
  apply moves_bind (moves_push Stack.colormap [.table])
  apply moves_bind (moves_forM rows hrow)
  apply moves_bind (moves_pop_top _ _)
  exact moves_pop_top _ _

theorem helpMarker_moves (hovered : Bool) : Moves (helpMarker hovered) [] () [] := by
  have h := moves_whenever hovered (moves_nested Stack.window .textWrapPos [])
  rwa [ite_self] at h

def unended (opens : Bool) : List Stack := if opens then [] else [.window]

theorem beginWindow_moves (opens : Bool) (ks : List Stack) :
    Moves (ImGui.beginWindow opens) ks opens (.window::ks) :=
  moves_bind (moves_push Stack.window ks) (moves_pure opens _)

theorem window_moves (opens : Bool) {p : UI Unit} (h : Moves p [.window] () []) :
    Moves (do whenever (← ImGui.beginWindow opens) p) [] () (unended opens) := by
  apply moves_bind (beginWindow_moves opens [])
  cases opens with
  | false => exact moves_pure () [Stack.window]
  | true => exact h

theorem endWindow_moves : Moves ImGui.endWindow [.window] () [] :=
  moves_pop_top Stack.window []

theorem dockSpaceWindow_moves (f : Frame) : Moves (dockSpaceWindow f) [] () [] := by
  apply moves_bind (moves_push _ _)
  apply moves_bind (moves_push _ _)
  apply moves_bind (moves_push _ _)
  apply moves_bind (beginWindow_moves f.dockSpaceDemo _)
  have hpop : Moves (ImGui.popStyleVar 3) [Stack.window, .styleVar, .styleVar, .styleVar] ()
      [.window] := by
    apply moves_bind (moves_pop _ _ (by decide))
    apply moves_bind (moves_pop _ _ (by decide))
    apply moves_bind (moves_pop _ _ (by decide))
    exact moves_pure () [Stack.window]
  exact moves_bind hpop endWindow_moves

theorem connectionWindow_moves (f : Frame) :
    Moves (connectionWindow f) [] () (unended f.connection) := by
  apply window_moves
  apply moves_bind (moves_push _ _)
  apply moves_bind (moves_pop_top _ _)
  exact endWindow_moves

theorem chartWindow_moves (f : Frame) : Moves (chartWindow f) [] () (unended f.chart) := by
  apply window_moves
  exact moves_bind (moves_frame (renderPlot_moves f.beginPlot) [.window]) endWindow_moves

theorem signalsWindow_moves (f : Frame) : Moves (signalsWindow f) [] () (unended f.signals) := by
  apply window_moves
  exact moves_bind (moves_frame (renderTable_moves f.beginTable f.rows) [.window]) endWindow_moves

theorem argumentsWindow_moves (f : Frame) :
    Moves (argumentsWindow f) [] () (unended f.arguments) := by
  apply window_moves
  apply moves_bind (moves_frame (helpMarker_moves f.hoveredKp) [.window])
  apply moves_bind (moves_frame (helpMarker_moves f.hoveredKi) [.window])
  apply moves_bind (moves_frame (helpMarker_moves f.hoveredKd) [.window])
  exact endWindow_moves

theorem unpadded_moves {window : UI Unit} {ls : List Stack} (h : Moves window [] () ls) :
    Moves (unpadded window) [] () ls := by
  have hone : ImGui.popStyleVar 1 = pop .styleVar := bind_pure_unit
  rw [unpadded, hone]
  exact moves_within Stack.styleVar h

def leftOpen (f : Frame) : List Stack :=
  unended f.arguments ++ (unended f.signals ++ (unended f.chart ++ unended f.connection))

theorem windows_moves (f : Frame) : Moves (windows f) [] () (leftOpen f) := by
  apply moves_bind (dockSpaceWindow_moves f)
  apply moves_bind (connectionWindow_moves f)
  apply moves_bind (moves_frame (unpadded_moves (chartWindow_moves f)) _)
  apply moves_bind (moves_frame (unpadded_moves (signalsWindow_moves f)) _)
  exact moves_frame (argumentsWindow_moves f) _

def Balanced (start : Depths) (frames : List Frame) : Prop :=
  ∃ depths last, frames.mapM render start = some (depths, last) ∧ ∀ r ∈ depths, r.2 = r.1

/-- A frame is always drawn to its end. What it leaves on the stacks are windows. -/
theorem render_runs (f : Frame) (d : Depths) :
    ∃ r d', render f d = some (r, d') ∧ r.2 = above r.1 (leftOpen f) := by
  have hw := windows_moves f (Function.update d .window 0)
  rw [above_nil] at hw
  refine ⟨(Function.update d .window 0, above (Function.update d .window 0) (leftOpen f)),
    Function.update (above (Function.update d .window 0) (leftOpen f)) .window 0, ?_, rfl⟩
  show (windows f (Function.update d .window 0)).bind _ = _
  rw [hw]
  rfl

theorem leftOpen_nil (f : Frame) :
    leftOpen f = [] ↔ f.connection = true ∧ f.chart = true ∧ f.signals = true ∧
      f.arguments = true := by
  have hone : ∀ opens, unended opens = [] ↔ opens = true := by decide
  simp only [leftOpen, List.append_eq_nil_iff, hone]
  tauto

theorem frames_run (start : Depths) (frames : List Frame) :
    ∃ depths last, frames.mapM render start = some (depths, last) ∧
      List.Forall₂ (fun f r => r.2 = above r.1 (leftOpen f)) frames depths :=
  mapM_runs render _ render_runs frames start

/-- No pop finds a stack empty, and of all stacks only that of the windows may
be left too deep. -/
theorem frames_drawn (start : Depths) (frames : List Frame) :
    ∃ depths last, frames.mapM render start = some (depths, last) ∧
      ∀ r ∈ depths, ∀ k, k ≠ .window → r.2 k = r.1 k := by
  obtain ⟨depths, last, hrun, hleft⟩ := frames_run start frames
  refine ⟨depths, last, hrun, ?_⟩
  intro r hr k hk
  obtain ⟨f, -, hf⟩ := exists_related hleft r hr
  have hnone : ∀ opens, (unended opens).count k = 0 := by
    intro opens
    cases opens <;> simp [unended, hk.symm]
  rw [hf]
  simp [above, leftOpen, hnone]

/-- Over every sequence of frames, with any number of series and any answers,
the frames are balanced exactly when none of the four windows is hidden that
are ended only if they can be seen. -/
theorem frames_balanced_iff (start : Depths) (frames : List Frame) :
    Balanced start frames ↔
      ∀ f ∈ frames, f.connection = true ∧ f.chart = true ∧ f.signals = true ∧
        f.arguments = true := by
  obtain ⟨depths, last, hrun, hleft⟩ := frames_run start frames
  have hframe : ∀ (f : Frame) (r : Depths × Depths), r.2 = above r.1 (leftOpen f) →
      (r.2 = r.1 ↔ f.connection = true ∧ f.chart = true ∧ f.signals = true ∧
        f.arguments = true) := by
    intro f r hr
    rw [hr, above_eq_self, leftOpen_nil]
  rw [← forall_mem_related hframe hleft]
  constructor
  · rintro ⟨depths', last', hrun', hall⟩
    rw [hrun] at hrun'
    cases hrun'
    exact hall
  · intro hall
    exact ⟨depths, last, hrun, hall⟩

def hiddenChart : Frame where
  dockSpaceDemo := true
  connection := true
  chart := false
  beginPlot := true
  signals := true
  beginTable := true
  rows := [⟨true, [⟨5, 1⟩]⟩]
  arguments := true
  hoveredKp := false
  hoveredKi := false
  hoveredKd := false

theorem hiddenChart_unbalanced : ¬ Balanced (fun _ => 0) [hiddenChart] := by
  rintro ⟨depths, last, hrun, hall⟩
  obtain ⟨depths', last', hrun', hleft⟩ := frames_run (fun _ => 0) [hiddenChart]
  rw [hrun] at hrun'
  cases hrun'
  cases hleft with
  | @cons _ r _ _ hr _ =>
    have heq := hall r List.mem_cons_self
    rw [hr, above_eq_self] at heq
    cases heq

end BusPlot.RenderFrame
