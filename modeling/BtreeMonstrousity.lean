import BtreeMonstrousity.Node
import BtreeMonstrousity.Search
import BtreeMonstrousity.PointSearch
import BtreeMonstrousity.Navigate
import BtreeMonstrousity.Bifurcation
import BtreeMonstrousity.Layer
import BtreeMonstrousity.FiniteMap
import BtreeMonstrousity.Map
import BtreeMonstrousity.Recover
import BtreeMonstrousity.Iter
import BtreeMonstrousity.Range
import BtreeMonstrousity.Compare
import BtreeMonstrousity.Cursor
import BtreeMonstrousity.Drain
import BtreeMonstrousity.Clone
