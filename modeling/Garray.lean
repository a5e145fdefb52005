import Garray.Go
import Garray.GoString
import Garray.Common
import Garray.SortedString.BinSearch
import Garray.SortedString.Add
import Garray.SortedString.Unique
import Garray.SortedString.Array
import Garray.SortedString.Invariant
import Garray.SortedString.Methods
import Garray.IntArray
import Garray.Window
import Garray.PopRand
import Garray.Sample
import Garray.Chunk
import Garray.FillPad
import Garray.SortedString.Bag
import Garray.IntArray.Methods
import Garray.IntArray.Run
import Garray.Backing
