import OpenJfx.Binding.MapSetExpressionHelper
import OpenJfx.Binding.ExpressionHelper
import OpenJfx.Collections.ObservableListWrapper.Extractor
import OpenJfx.Transformation.FilteredList.Runs
import OpenJfx.Css.CascadingStyle
import OpenJfx.Css.BitSet.Equality
import OpenJfx.Css.SelectorPartitioning.Match
import OpenJfx.Event.CompositeEventHandler.Runs
import OpenJfx.Event.EventDispatchTree.Dispatch
import OpenJfx.Binding.ListContentBinding
import OpenJfx.Binding.BidirectionalBinding.Runs
import OpenJfx.Css.Binary.RoundTrip
import OpenJfx.Css.Ownership
import OpenJfx.Controls.MultipleSelectionModel.SingleMode
import OpenJfx.Controls.MultipleSelectionModel.EventRuns
import OpenJfx.Controls.TextInputControl.UndoRedo
import OpenJfx.Graphics.DirtyRegionContainer.Halving
import OpenJfx.Graphics.DirtyRegionContainer.Disjoint
import OpenJfx.Graphics.DirtyRegionContainer.Coverage
import OpenJfx.Animation.FiniteClipEnvelope.Jumps
import OpenJfx.Animation.TimelineClipCore.Visits
import OpenJfx.Animation.ParallelTransition.Timing
import OpenJfx.Fxml.Expression.Variables
import OpenJfx.Monocle.LinuxEventBuffer
import OpenJfx.Network.CookieStore.Ordering
import OpenJfx.Concurrent.ScheduledService.Stopping
import OpenJfx.Concurrent.Service.Lifecycle
import OpenJfx.Fxml.ExpressionValue.Freshness
import OpenJfx.Iio.Bmp.RunLength
import OpenJfx.Iio.Gif.Decoding
import OpenJfx.Iio.Png.Overflow
import OpenJfx.Iio.Png.Filtering
import OpenJfx.Monocle.MultiTouch.Batches
import OpenJfx.Monocle.MultiTouch.Lookahead
import OpenJfx.Prism.QueuedPixelSource
import OpenJfx.Network.DataURLConnection
import OpenJfx.Monocle.AssignPointIDTouchFilter
import OpenJfx.Monocle.TouchInput
import OpenJfx.Prism.ResourcePool.Cleanup
import OpenJfx.Collections.SortHelper.Offset
import OpenJfx.Collections.ListChangeBuilder.Updates
import OpenJfx.Controls.ToggleGroup.Exclusion
import OpenJfx.Prism.GlyphCache.Coherence
import OpenJfx.Binding.MapValueChange
import OpenJfx.Css.Specificity
import OpenJfx.Event.EventDispatchChain.Refinement
import OpenJfx.Event.EventDispatchTree.Union
import OpenJfx.Controls.TreeUtil.Rows
import OpenJfx.Iio.Png.Chunks
import OpenJfx.Network.PublicSuffixes
import OpenJfx.Controls.SpinnerValueFactory
import OpenJfx.Controls.SelectedCellsMap
import OpenJfx.Text.PrismTextLayout
import OpenJfx.Font.WoffDecoder
import OpenJfx.Controls.ArrayLinkedList
import OpenJfx.Collections.FXCollections
import OpenJfx.Traversal.TabOrderHelper
import OpenJfx.Input.KeyCombination
